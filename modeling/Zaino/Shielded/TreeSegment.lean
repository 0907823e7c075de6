import Zaino.Library.Listing
import Zaino.Library.PartialTree

/-!
# The commitment-tree segment algebra

A `TreeSegment` summarises a contiguous run of leaves of an append-only tree by the complete nodes
inside it. A block's run is lifted by itself, neighbouring runs are combined at the cost of the nodes
that straddle the boundary between them, and the carried frontier of everything before is stitched on
as one more segment. The frontier after any leaf of the run is then a lookup.

What an operation does is said twice. Whatever tree its operands are taken from, so is its result
(`lift_sound`, `carrySegment_sound`, `combine_sound`). And which nodes it retains depends only on where the
segment begins and ends (`lift_exact`, `carrySegment_retains`, `combine_only`, `combine_complete`).
-/

namespace Zaino.Shielded

open Library List Nat Or List

/-- The depth of the note commitment trees. -/
def depth : Nat := 32

/-- A summary of the leaves at `start`, `start + 1`, …, `start + len - 1`. -/
structure TreeSegment (H : Type) where
  start : Nat
  len : Nat
  nodes : HashMap (Nat × Nat) H

namespace TreeSegment

variable {H : Type}

/-- The segment without leaves. -/
def empty : TreeSegment H := ⟨0, 0, ∅⟩

/-- One past the last leaf. -/
def stop (segment : TreeSegment H) : Nat := segment.start + segment.len

/-- The retained node at a level and an index. -/
def nodeAt (segment : TreeSegment H) (level index : Nat) : Option H :=
  segment.nodes.lookup (level, index)

section Build

variable (combineNodes : Nat → H → H → H)

/-- The parents of the complete pairs at a level; `none` is the panic on a missing child. -/
def buildLevel (level first last : Nat) (nodes : HashMap (Nat × Nat) H) :
    Option (List ((Nat × Nat) × H)) :=
  (range' first (last - first)).mapM fun index => do
    let left ← nodes.lookup (level, 2 * index)
    let right ← nodes.lookup (level, 2 * index + 1)
    some ((level + 1, index), combineNodes level left right)

/-- Build the levels above `level`, until one has no complete node. -/
def buildLevels (start stop : Nat) : Nat → Nat → HashMap (Nat × Nat) H →
    Option (HashMap (Nat × Nat) H)
  | 0, _, nodes => some nodes
  | remaining + 1, level, nodes =>
    let span := 2 ^ (level + 1)
    let first := divCeil start span
    let last := stop / span
    if last ≤ first then some nodes
    else do
      let built ← buildLevel combineNodes level first last nodes
      buildLevels start stop remaining (level + 1) (nodes.insertAll built)

/-- The segment of a run of leaves. -/
def lift (leaves : List H) (start : Nat) : Option (TreeSegment H) :=
  let len := leaves.length
  if len = 0 then some ⟨start, 0, ∅⟩
  else do
    let placed := (leaves.zipIdx start).map fun entry => ((0, entry.2), entry.1)
    let nodes ← buildLevels combineNodes start (start + len) depth 0 (HashMap.insertAll ∅ placed)
    some ⟨start, len, nodes⟩

/-- Walk the ommers with the rightmost perfect subtree: a neighbour on its level combines with it, a
gap closes it as a peak. -/
def foldPeaks : Nat × H → List (Nat × H) → List (Nat × H)
  | acc, [] => [acc]
  | acc, (ommerLevel, ommer) :: rest =>
    if ommerLevel = acc.1 then foldPeaks (acc.1 + 1, combineNodes acc.1 ommer acc.2) rest
    else acc :: foldPeaks (ommerLevel, ommer) rest

/-- The roots of the perfect subtrees that tile a frontier's leaves, with their levels. -/
def frontierToPeaks (frontier : NonEmptyFrontier H) : List (Nat × H) :=
  let ommerLevels := (range 64).filter fun level => frontier.position / 2 ^ level % 2 = 1
  foldPeaks combineNodes (0, frontier.leaf) (ommerLevels.zip frontier.ommers)

/-- Place peaks one after the other from the left. -/
def placePeaks : Nat → List (Nat × H) → List ((Nat × Nat) × H)
  | _, [] => []
  | tiled, (level, node) :: rest =>
    ((level, tiled / 2 ^ level), node) :: placePeaks (tiled + 2 ^ level) rest

/-- A carried frontier as a segment: its peaks, its tip and its ommers. -/
def carrySegment (frontier : Frontier H) : TreeSegment H :=
  match frontier with
  | none => empty
  | some nonEmpty =>
    let size := nonEmpty.position + 1
    let peaks := (frontierToPeaks combineNodes nonEmpty).mergeSort fun a b => b.1 ≤ a.1
    let nodes := HashMap.insertAll ∅ (placePeaks 0 peaks)
    let nodes := nodes.insert (0, nonEmpty.position) nonEmpty.leaf
    let nodes := HashMap.insertAll nodes ((pastAddrs 0 nonEmpty.position).zip nonEmpty.ommers)
    ⟨0, size, nodes⟩

/-- Build the nodes that straddle the seam, bottom up. -/
def seamWalk (start seam stop : Nat) : List Nat → HashMap (Nat × Nat) H → HashMap (Nat × Nat) H
  | [], nodes => nodes
  | parentLevel :: rest, nodes =>
    let span := 2 ^ parentLevel
    let index := seam / span
    if seam % span = 0 then seamWalk start seam stop rest nodes
    else if stop < (index + 1) * span then nodes
    else if index * span < start then seamWalk start seam stop rest nodes
    else if (nodes.lookup (parentLevel, index)).isSome then seamWalk start seam stop rest nodes
    else
      let childLevel := parentLevel - 1
      match nodes.lookup (childLevel, 2 * index), nodes.lookup (childLevel, 2 * index + 1) with
      | some left, some right =>
        seamWalk start seam stop rest
          (nodes.insert (parentLevel, index) (combineNodes childLevel left right))
      | _, _ => seamWalk start seam stop rest nodes

/-- Everything a map holds, as pairs. -/
def entriesOf (nodes : HashMap (Nat × Nat) H) : List ((Nat × Nat) × H) :=
  nodes.entries.map fun entry => (entry.1, entry.2)

/-- Join two neighbouring segments, the earlier one first. -/
def combine (a b : TreeSegment H) : TreeSegment H :=
  if a.len = 0 then b
  else if b.len = 0 then a
  else
    let start := a.start
    let seam := a.stop
    let len := a.len + b.len
    let nodes :=
      if b.nodes.entries.length ≤ a.nodes.entries.length then a.nodes.insertAll (entriesOf b.nodes)
      else b.nodes.insertAll (entriesOf a.nodes)
    ⟨start, len, seamWalk combineNodes start seam (start + len) (range' 1 depth) nodes⟩

end Build

/-- The frontier after exactly `size` leaves, where its nodes are retained. -/
def frontierAt (segment : TreeSegment H) (size : Nat) : Option (NonEmptyFrontier H) :=
  if size = 0 then none
  else do
    let leaf ← segment.nodeAt 0 (size - 1)
    let ommers ← (pastAddrs 0 (size - 1)).mapM fun addr => segment.nodeAt addr.1 addr.2
    some ⟨size - 1, leaf, ommers⟩

/-! ## What a segment holds -/

section Holds

variable {combineNodes : Nat → H → H → H}

/-- The node at an address is retained. -/
def Retains (nodes : HashMap (Nat × Nat) H) (level index : Nat) : Prop :=
  (nodes.lookup (level, index)).isSome

/-- Every retained node is a node of what is known of a tree. -/
def SoundIn (known : Nat → Nat → Option H) (nodes : HashMap (Nat × Nat) H) : Prop :=
  ∀ level index x, nodes.lookup (level, index) = some x → known level index = some x

variable {known : Nat → Nat → Option H}

theorem soundIn_empty : SoundIn known (∅ : HashMap (Nat × Nat) H) := by
  intro level index x found
  cases found

variable {nodes first second : HashMap (Nat × Nat) H} {level index : Nat} {addr : Nat × Nat}
  {pairs : List ((Nat × Nat) × H)}

theorem Retains.node
    (retains : Retains nodes level index) : ∃ node, nodes.lookup (level, index) = some node :=
  Option.isSome_iff_exists.mp retains

theorem retains_insert {node : H} : Retains (nodes.insert addr node) level index ↔
      (level, index) = addr ∨ Retains nodes level index := by
  unfold Retains
  by_cases same : (level, index) = addr
  · rw [← same]
    simp [AList.lookup_insert]
  · simp [AList.lookup_insert_ne same, same]

theorem SoundIn.insert (sound : SoundIn known nodes) {x : H}
    (is_node : known addr.1 addr.2 = some x) : SoundIn known (nodes.insert addr x) := by
  intro level index found held
  rcases HashMap.lookup_insert_eq_some.mp held with ⟨same, is_found⟩ | ⟨_, before⟩
  · rw [← is_found, ← is_node, ← same]
  · exact sound level index found before

theorem SoundIn.insertAll (sound : SoundIn known nodes)
    (are_nodes : ∀ pair ∈ pairs, known pair.1.1 pair.1.2 = some pair.2) :
    SoundIn known (HashMap.insertAll nodes pairs) := by
  induction pairs generalizing nodes with
  | nil => exact sound
  | cons pair rest ih =>
    exact ih (sound.insert (are_nodes pair mem_cons_self))
      fun other member => are_nodes other (mem_cons_of_mem pair member)

theorem retains_insertAll : Retains (HashMap.insertAll nodes pairs) level index ↔
      (level, index) ∈ pairs.map Prod.fst ∨ Retains nodes level index := by
  induction pairs generalizing nodes with
  | nil => simp [HashMap.insertAll]
  | cons pair rest ih =>
    change Retains (HashMap.insertAll (nodes.insert pair.1 pair.2) rest) level index ↔ _
    rw [ih, retains_insert, map_cons, mem_cons]
    tauto

theorem mem_entriesOf {pair : (Nat × Nat) × H} :
    pair ∈ entriesOf nodes ↔ nodes.lookup pair.1 = some pair.2 := by
  rw [entriesOf, mem_map, HashMap.lookup_eq_some_iff]
  exact ⟨fun ⟨_, member, same⟩ => same ▸ member, fun member => ⟨⟨pair.1, pair.2⟩, member, rfl⟩⟩

theorem mem_map_fst_entriesOf :
    (level, index) ∈ (entriesOf nodes).map Prod.fst ↔ Retains nodes level index := by
  rw [mem_map, Retains, Option.isSome_iff_exists]
  exact ⟨fun ⟨pair, member, is_addr⟩ => is_addr ▸ ⟨pair.2, mem_entriesOf.mp member⟩,
    fun ⟨node, held⟩ => ⟨((level, index), node), mem_entriesOf.mpr held, rfl⟩⟩

theorem SoundIn.union (sound_first : SoundIn known first) (sound_second : SoundIn known second) :
    SoundIn known (HashMap.insertAll first (entriesOf second)) :=
  sound_first.insertAll fun _ member => sound_second _ _ _ (mem_entriesOf.mp member)

theorem retains_union : Retains (HashMap.insertAll first (entriesOf second)) level index ↔
      Retains first level index ∨ Retains second level index := by
  rw [retains_insertAll, mem_map_fst_entriesOf, or_comm]

/-! ## Lifting a run -/

variable {level first last above index lo hi remaining : Nat} {nodes : HashMap (Nat × Nat) H}
  {built : List ((Nat × Nat) × H)} {run : List H}

variable (combineNodes) in
theorem buildLevel_returns
    (children : ∀ index, 2 * first ≤ index → index < 2 * last → Retains nodes level index) :
    ∃ built, buildLevel combineNodes level first last nodes = some built := by
  have each : ∀ index ∈ range' first (last - first), ∃ pair : (Nat × Nat) × H,
      (do
        let left ← nodes.lookup (level, 2 * index)
        let right ← nodes.lookup (level, 2 * index + 1)
        some ((level + 1, index), combineNodes level left right)) = some pair ∧ True := by
    intro index member
    have bounds := mem_range'_1.mp member
    rcases (children (2 * index) (by omega) (by omega)).node with ⟨left, is_left⟩
    rcases (children (2 * index + 1) (by omega) (by omega)).node with ⟨right, is_right⟩
    exact ⟨_, by rw [is_left, is_right]; rfl, trivial⟩
  rcases exists_mapM_eq_some each with ⟨built, is_built, _⟩
  exact ⟨built, is_built⟩

/-- What is built at a level: the parents from the first to the last, each of its two children. -/
theorem buildLevel_spec (is_built : buildLevel combineNodes level first last nodes = some built) :
    List.Forall₂ (fun index pair => ∃ left right, nodes.lookup (level, 2 * index) = some left ∧
        nodes.lookup (level, 2 * index + 1) = some right ∧
        pair = ((level + 1, index), combineNodes level left right))
      (range' first (last - first)) built := by
  refine (mapM_eq_some_iff.mp is_built).imp fun index pair is_pair => ?_
  simp only [Option.bind_eq_bind, Option.bind_eq_some_iff, Option.some.injEq] at is_pair
  rcases is_pair with ⟨left, is_left, right, is_right, same⟩
  exact ⟨left, right, is_left, is_right, same.symm⟩

theorem buildLevel_sound (hashes : Hashes combineNodes known) (sound : SoundIn known nodes)
    (is_built : buildLevel combineNodes level first last nodes = some built) :
    ∀ pair ∈ built, known pair.1.1 pair.1.2 = some pair.2 := by
  intro pair member
  rcases exists_left_of_forall₂ (buildLevel_spec is_built) member with
    ⟨index, _, left, right, is_left, is_right, rfl⟩
  exact hashes level index left right (sound _ _ _ is_left) (sound _ _ _ is_right)

theorem mem_buildLevel (is_built : buildLevel combineNodes level first last nodes = some built) :
    (above, index) ∈ built.map Prod.fst ↔ above = level + 1 ∧ first ≤ index ∧ index < last := by
  rw [mem_map]
  constructor
  · rintro ⟨pair, member, is_addr⟩
    rcases exists_left_of_forall₂ (buildLevel_spec is_built) member with
      ⟨parent, listed, _, _, _, _, rfl⟩
    have bounds := mem_range'_1.mp listed
    rcases Prod.mk.inj is_addr with ⟨rfl, rfl⟩
    exact ⟨rfl, by omega, by omega⟩
  · rintro ⟨rfl, from_first, to_last⟩
    have listed := mem_range'_1.mpr (show first ≤ index ∧ index < first + (last - first) by omega)
    rcases exists_right_of_forall₂ (buildLevel_spec is_built) listed with
      ⟨pair, member, _, _, _, _, rfl⟩
    exact ⟨_, member, rfl⟩

theorem buildLevels_sound {built : HashMap (Nat × Nat) H} (hashes : Hashes combineNodes known)
    (sound : SoundIn known nodes)
    (is_built : buildLevels combineNodes lo hi remaining level nodes = some built) :
    SoundIn known built := by
  induction remaining generalizing level nodes with
  | zero =>
    cases is_built
    exact sound
  | succ remaining ih =>
    rw [buildLevels] at is_built
    split at is_built
    · cases is_built
      exact sound
    · rw [Option.bind_eq_bind, Option.bind_eq_some_iff] at is_built
      rcases is_built with ⟨parents, are_parents, is_built⟩
      exact ih (sound.insertAll (buildLevel_sound hashes sound are_parents)) is_built

/-- Above a level without a complete node there is none. -/
theorem no_node_above (none_above : hi / 2 ^ (level + 1) ≤ divCeil lo (2 ^ (level + 1)))
    (higher : level < above) : hi / 2 ^ above ≤ divCeil lo (2 ^ above) := by
  obtain ⟨extra, rfl⟩ := Nat.exists_eq_add_of_le higher
  have reaches := (divCeil_le_iff (Nat.two_pow_pos _)).mp (Nat.le_refl (divCeil lo (2 ^ (level.succ + extra))))
  generalize divCeil lo (2 ^ (level.succ + extra)) = top at reaches
  rw [Nat.pow_add, Nat.mul_comm (2 ^ level.succ), ← Nat.mul_assoc,
    ← divCeil_le_iff (Nat.two_pow_pos level.succ), Nat.mul_comm] at reaches
  rw [Nat.pow_add, ← Nat.div_div_eq_div_mul]
  exact Nat.div_le_of_le_mul (Nat.le_trans none_above reaches)

/-- A node at one of the tree's levels, from the level's first index on, that ends by `hi`. -/
def Inside (first : Nat → Nat) (hi level index : Nat) : Prop :=
  level ≤ depth ∧ first level ≤ index ∧ index < hi / 2 ^ level

/-- Building upwards from the complete nodes up to a level gives those of every level. -/
theorem buildLevels_returns (reaches : level + remaining = depth)
    (retains : ∀ below index, Retains nodes below index ↔
      below ≤ level ∧ Inside (fun l => divCeil lo (2 ^ l)) hi below index) :
    ∃ built, buildLevels combineNodes lo hi remaining level nodes = some built ∧
      ∀ above index, Retains built above index ↔
        Inside (fun l => divCeil lo (2 ^ l)) hi above index := by
  induction remaining generalizing level nodes with
  | zero =>
    have top : level = depth := by omega
    refine ⟨nodes, rfl, fun above index => ?_⟩
    rw [retains, top]
    exact ⟨fun held => held.2, fun inside => ⟨inside.1, inside⟩⟩
  | succ remaining ih =>
    rw [buildLevels]
    split
    · next none_above =>
      refine ⟨nodes, rfl, fun above index => ?_⟩
      rw [retains]
      refine ⟨fun held => held.2, fun inside => ⟨?_, inside⟩⟩
      rcases Nat.lt_or_ge level above with higher | lower
      · have from_lo := inside.2.1
        exact absurd (lt_of_le_of_lt from_lo inside.2.2)
          (Nat.not_lt_of_le (no_node_above none_above higher))
      · exact lower
    · next some_above =>
      have halved_lo := divCeil_two_pow_succ lo level
      have halved_hi := div_two_pow_succ hi level
      have children : ∀ index, 2 * divCeil lo (2 ^ (level + 1)) ≤ index →
          index < 2 * (hi / 2 ^ (level + 1)) → Retains nodes level index :=
        fun index from_lo to_hi => (retains level index).mpr
          ⟨Nat.le_refl level, by omega, by dsimp only; omega, by omega⟩
      rcases buildLevel_returns combineNodes children with ⟨built, is_built⟩
      rw [is_built]
      refine ih (by omega) fun below index => ?_
      rw [retains_insertAll, mem_buildLevel is_built, retains]
      constructor
      · rintro (⟨rfl, from_lo, to_hi⟩ | ⟨lower, inside⟩)
        · exact ⟨Nat.le_refl _, by omega, from_lo, to_hi⟩
        · exact ⟨by omega, inside⟩
      · rintro ⟨within, inside⟩
        rcases Nat.lt_or_ge level below with higher | lower
        · have next : below = level + 1 := by omega
          subst next
          exact inl ⟨rfl, inside.2.1, inside.2.2⟩
        · exact inr ⟨lower, inside⟩

/-- The leaves of a run at their addresses. -/
theorem mem_placed {pair : (Nat × Nat) × H} :
    pair ∈ ((run.zipIdx lo).map fun entry => ((0, entry.2), entry.1)) ↔
      pair.1.1 = 0 ∧ lo ≤ pair.1.2 ∧ run[pair.1.2 - lo]? = some pair.2 := by
  rw [mem_map]
  constructor
  · rintro ⟨⟨x, index⟩, at_entry, rfl⟩
    exact ⟨rfl, mk_mem_zipIdx_iff_le_and_getElem?_sub.mp at_entry⟩
  · rcases pair with ⟨⟨level, index⟩, x⟩
    rintro ⟨rfl, is_leaf⟩
    exact ⟨(x, index), mk_mem_zipIdx_iff_le_and_getElem?_sub.mpr is_leaf, rfl⟩

theorem retains_placed :
    Retains (HashMap.insertAll ∅ ((run.zipIdx lo).map fun entry => ((0, entry.2), entry.1)))
        level index ↔
      level ≤ 0 ∧ Inside (fun l => divCeil lo (2 ^ l)) (lo + run.length) level index := by
  have none_before : ¬ Retains (∅ : HashMap (Nat × Nat) H) level index := fun held => nomatch held
  have addresses : ((run.zipIdx lo).map fun entry => (((0, entry.2), entry.1) : (Nat × Nat) × H)).map
      Prod.fst = (range' lo run.length).map fun at_leaf => (0, at_leaf) := by
    rw [← zipIdx_map_snd, map_map, map_map]
    rfl
  rw [retains_insertAll, or_iff_left none_before, addresses, mem_map, Inside]
  constructor
  · rintro ⟨at_leaf, listed, same⟩
    cases same
    simpa using mem_range'_1.mp listed
  · rintro ⟨bottom, -, from_lo, to_hi⟩
    obtain rfl := le_zero.mp bottom
    simp only [Nat.pow_zero, divCeil_one, Nat.div_one] at from_lo to_hi
    exact ⟨index, mem_range'_1.mpr ⟨from_lo, to_hi⟩, rfl⟩

variable (combineNodes) in
/-- A lifted run retains the complete nodes inside it. -/
theorem lift_exact (run : List H) (lo : Nat) :
    ∃ segment, lift combineNodes run lo = some segment ∧ segment.start = lo ∧
      segment.len = run.length ∧ ∀ level index, Retains segment.nodes level index ↔
        Inside (fun l => divCeil lo (2 ^ l)) (lo + run.length) level index := by
  rw [lift]
  dsimp only
  split
  · next no_leaf =>
    refine ⟨_, rfl, rfl, no_leaf.symm, fun level index => ⟨fun held => (nomatch held), fun inside => ?_⟩⟩
    have gap := div_le_divCeil lo level
    have from_lo := inside.2.1
    have to_hi := inside.2.2
    rw [no_leaf, add_zero] at to_hi
    dsimp only at from_lo
    omega
  · next some_leaf =>
    rcases buildLevels_returns (zero_add depth) fun below index => retains_placed with
      ⟨nodes, is_nodes, retains⟩
    rw [is_nodes]
    exact ⟨_, rfl, rfl, rfl, retains⟩

theorem lift_sound {run : List H} {lo : Nat} {segment : TreeSegment H}
    (hashes : Hashes combineNodes known)
    (are_leaves : ∀ index x, lo ≤ index → run[index - lo]? = some x → known 0 index = some x)
    (is_lift : lift combineNodes run lo = some segment) : SoundIn known segment.nodes := by
  rw [lift] at is_lift
  split at is_lift
  · cases is_lift
    exact soundIn_empty
  · rw [Option.bind_eq_bind, Option.bind_eq_some_iff] at is_lift
    rcases is_lift with ⟨nodes, is_nodes, same⟩
    cases same
    refine buildLevels_sound hashes (soundIn_empty.insertAll fun pair member => ?_) is_nodes
    rcases mem_placed.mp member with ⟨bottom, from_lo, is_leaf⟩
    rw [bottom]
    exact are_leaves _ _ from_lo is_leaf

/-! ## Joining neighbours -/

/-- At every level, the children of a node that straddles the seam are retained unless they straddle
it themselves. -/
def SeamReady (start seam stop : Nat) (nodes : HashMap (Nat × Nat) H) : Prop :=
  ∀ level < depth, ∀ child, child / 2 = seam / 2 ^ (level + 1) →
    seam % 2 ^ (level + 1) ≠ 0 → divCeil start (2 ^ (level + 1)) ≤ seam / 2 ^ (level + 1) →
    seam / 2 ^ (level + 1) < stop / 2 ^ (level + 1) →
    (child < seam / 2 ^ level ∨ divCeil seam (2 ^ level) ≤ child) → Retains nodes level child

/-- The nodes that straddle the seam below a level are retained. -/
def SeamBuilt (start seam stop level : Nat) (nodes : HashMap (Nat × Nat) H) : Prop :=
  ∀ below < level, seam % 2 ^ below ≠ 0 → divCeil start (2 ^ below) ≤ seam / 2 ^ below →
    seam / 2 ^ below < stop / 2 ^ below → Retains nodes below (seam / 2 ^ below)

variable {start seam stop level : Nat} {nodes more : HashMap (Nat × Nat) H}

theorem SeamReady.mono (ready : SeamReady start seam stop nodes)
    (keeps : ∀ level index, Retains nodes level index → Retains more level index) :
    SeamReady start seam stop more :=
  fun level within child is_child straddles from_start to_stop beside =>
    keeps level child (ready level within child is_child straddles from_start to_stop beside)

theorem div_le_div_above {a b above : Nat} (here : a / 2 ^ level ≤ b / 2 ^ level)
    (higher : level ≤ above) : a / 2 ^ above ≤ b / 2 ^ above := by
  obtain ⟨extra, rfl⟩ := Nat.exists_eq_add_of_le higher
  rw [Nat.pow_add, ← Nat.div_div_eq_div_mul, ← Nat.div_div_eq_div_mul]
  exact Nat.div_le_div_right here

/-- Where the walk is at, the children of the straddling node are there. -/
theorem child_retained (within : level < depth) (ready : SeamReady start seam stop nodes)
    (built : SeamBuilt start seam stop (level + 1) nodes) (straddles : seam % 2 ^ (level + 1) ≠ 0)
    (from_start : divCeil start (2 ^ (level + 1)) ≤ seam / 2 ^ (level + 1))
    (to_stop : seam / 2 ^ (level + 1) < stop / 2 ^ (level + 1)) {child : Nat}
    (is_child : child / 2 = seam / 2 ^ (level + 1)) : Retains nodes level child := by
  have halved_start := divCeil_two_pow_succ start level
  have halved_stop := div_two_pow_succ stop level
  have above := divCeil_le_div_succ seam level
  by_cases beside : child < seam / 2 ^ level ∨ divCeil seam (2 ^ level) ≤ child
  · exact ready level within child is_child straddles from_start to_stop beside
  · -- The child straddles the seam as well, one level down.
    have is_seam : child = seam / 2 ^ level := by omega
    have uneven : seam % 2 ^ level ≠ 0 := fun even => by
      have level_up := divCeil_eq_div_iff.mpr even
      omega
    rw [is_seam]
    exact built level (lt_succ_self level) uneven (by omega) (by omega)

theorem SeamBuilt.succ (built : SeamBuilt start seam stop level nodes)
    (keeps : ∀ at_level index, Retains nodes at_level index → Retains more at_level index)
    (here : seam % 2 ^ level ≠ 0 → divCeil start (2 ^ level) ≤ seam / 2 ^ level →
      seam / 2 ^ level < stop / 2 ^ level → Retains more level (seam / 2 ^ level)) :
    SeamBuilt start seam stop (level + 1) more := by
  intro below within straddles from_start to_stop
  rcases Nat.lt_or_ge below level with lower | top
  · exact keeps below _ (built below lower straddles from_start to_stop)
  · have same : below = level := by omega
    subst same
    exact here straddles from_start to_stop

variable {start seam stop : Nat} {nodes : HashMap (Nat × Nat) H} {levels : List Nat}

variable (combineNodes) in
/-- One level of the walk: it stops beyond the end, goes on when there is nothing to build or to build
from, or adds the straddling node from its children. -/
theorem seamWalk_cons {parentLevel : Nat} {rest : List Nat} : let span := 2 ^ parentLevel
    let index := seam / span
    let walked := seamWalk combineNodes start seam stop (parentLevel :: rest) nodes
    walked = nodes ∧ stop < (index + 1) * span ∨
      walked = seamWalk combineNodes start seam stop rest nodes ∧
        (seam % span = 0 ∨ index * span < start ∨ Retains nodes parentLevel index ∨
          ¬(Retains nodes (parentLevel - 1) (2 * index) ∧
            Retains nodes (parentLevel - 1) (2 * index + 1))) ∨
      ∃ left right, start ≤ index * span ∧ (index + 1) * span ≤ stop ∧
        nodes.lookup (parentLevel - 1, 2 * index) = some left ∧
        nodes.lookup (parentLevel - 1, 2 * index + 1) = some right ∧
        walked = seamWalk combineNodes start seam stop rest
          (nodes.insert (parentLevel, index) (combineNodes (parentLevel - 1) left right)) := by
  intro span index walked
  simp only [walked, seamWalk]
  split
  · next aligned => exact inr (inl ⟨rfl, inl aligned⟩)
  split
  · next beyond => exact inl ⟨rfl, beyond⟩
  next inside =>
  split
  · next before => exact inr (inl ⟨rfl, inr (inl before)⟩)
  next after =>
  split
  · next present => exact inr (inl ⟨rfl, inr (inr (inl present))⟩)
  split
  · next left right is_left is_right =>
    exact inr (inr ⟨left, right, Nat.le_of_not_lt after, Nat.le_of_not_lt inside, is_left,
      is_right, rfl⟩)
  · next missing =>
    refine inr (inl ⟨rfl, inr (inr (inr fun ⟨has_left, has_right⟩ => ?_))⟩)
    obtain ⟨left, is_left⟩ := has_left.node
    obtain ⟨right, is_right⟩ := has_right.node
    exact missing left right is_left is_right

theorem seamWalk_sound (hashes : Hashes combineNodes known) (positive : ∀ level ∈ levels, 0 < level)
    (sound : SoundIn known nodes) :
    SoundIn known (seamWalk combineNodes start seam stop levels nodes) := by
  induction levels generalizing nodes with
  | nil => exact sound
  | cons parentLevel rest ih =>
    have onward : ∀ level ∈ rest, 0 < level := fun level member =>
      positive level (mem_cons_of_mem parentLevel member)
    rcases seamWalk_cons combineNodes with
      ⟨stops, _⟩ | ⟨goes, _⟩ | ⟨left, right, _, _, is_left, is_right, adds⟩
    · rw [stops]
      exact sound
    · rw [goes]
      exact ih onward sound
    · have is_parent := hashes (parentLevel - 1) (seam / 2 ^ parentLevel) left right
        (sound _ _ _ is_left) (sound _ _ _ is_right)
      rw [Nat.sub_add_cancel (positive parentLevel mem_cons_self)] at is_parent
      rw [adds]
      exact ih onward (sound.insert is_parent)

variable {level index : Nat}

/-- The walk adds only nodes that straddle the seam and lie inside. -/
theorem seamWalk_only
    (retained : Retains (seamWalk combineNodes start seam stop levels nodes) level index) :
    Retains nodes level index ∨ (level ∈ levels ∧ index = seam / 2 ^ level ∧
      start ≤ index * 2 ^ level ∧ (index + 1) * 2 ^ level ≤ stop) := by
  induction levels generalizing nodes with
  | nil => exact inl retained
  | cons parentLevel rest ih =>
    rcases seamWalk_cons combineNodes with
      ⟨stops, _⟩ | ⟨goes, _⟩ | ⟨left, right, from_start, to_stop, _, _, adds⟩
    · rw [stops] at retained
      exact inl retained
    · rw [goes] at retained
      exact (ih retained).imp id fun added => ⟨mem_cons_of_mem parentLevel added.1, added.2⟩
    · rw [adds] at retained
      rcases ih retained with held | added
      · rcases retains_insert.mp held with here | before
        · rcases Prod.mk.inj here with ⟨rfl, rfl⟩
          exact inr ⟨mem_cons_self, rfl, from_start, to_stop⟩
        · exact inl before
      · exact inr ⟨mem_cons_of_mem parentLevel added.1, added.2⟩

variable (combineNodes) in
/-- The walk keeps what is retained and builds every node that straddles the seam. -/
theorem seamWalk_built {start seam stop level count : Nat} {nodes : HashMap (Nat × Nat) H}
    (reaches : level + count = depth) (ready : SeamReady start seam stop nodes)
    (built : SeamBuilt start seam stop (level + 1) nodes) :
    (∀ at_level index, Retains nodes at_level index →
        Retains (seamWalk combineNodes start seam stop (range' (level + 1) count) nodes)
          at_level index) ∧ SeamBuilt start seam stop (depth + 1)
        (seamWalk combineNodes start seam stop (range' (level + 1) count) nodes) := by
  induction count generalizing level nodes with
  | zero =>
    have top : level = depth := by omega
    exact ⟨fun _ _ retained => retained, top ▸ built⟩
  | succ count ih =>
    have positive := Nat.two_pow_pos (level + 1)
    have reaches : level + 1 + count = depth := by omega
    rw [range'_succ]
    rcases seamWalk_cons combineNodes with
      ⟨stops, beyond⟩ | ⟨goes, skipped⟩ | ⟨left, right, _, _, _, _, adds⟩
    · rw [stops]
      refine ⟨fun _ _ retained => retained, fun below _ uneven from_start to_stop => ?_⟩
      rcases Nat.lt_or_ge below (level + 1) with lower | higher
      · exact built below lower uneven from_start to_stop
      · have past := le_of_lt_succ ((div_lt_iff_lt_mul positive).mpr beyond)
        exact absurd (div_le_div_above past higher) (by omega)
    · rw [goes]
      refine ih reaches ready (built.succ (fun _ _ retained => retained) ?_)
      intro straddles from_start to_stop
      have child := @child_retained _ _ _ _ _ _ (by omega) ready built straddles from_start to_stop
      rcases skipped with aligned | before | present | missing
      · exact absurd aligned straddles
      · exact absurd ((divCeil_le_iff positive).mp from_start) (Nat.not_le_of_lt before)
      · exact present
      · exact absurd ⟨child (by omega), child (by omega)⟩ missing
    · have keeps : ∀ at_level index, Retains nodes at_level index →
          Retains (nodes.insert (level + 1, seam / 2 ^ (level + 1))
            (combineNodes level left right)) at_level index :=
        fun _ _ retained => retains_insert.mpr (inr retained)
      rw [adds]
      obtain ⟨kept, grown⟩ := ih reaches (ready.mono keeps)
        (built.succ keeps fun _ _ _ => retains_insert.mpr (inl rfl))
      exact ⟨fun at_level index retained => kept at_level index (keeps at_level index retained), grown⟩

theorem combine_empty_left {a : TreeSegment H} (b : TreeSegment H) (no_leaf : a.len = 0) :
    combine combineNodes a b = b := by
  rw [combine, if_pos no_leaf]

variable {a b : TreeSegment H}

theorem combine_empty_right (filled : a.len ≠ 0) (no_leaf : b.len = 0) :
    combine combineNodes a b = a := by
  rw [combine, if_neg filled, if_pos no_leaf]

variable (combineNodes) in
/-- The segment joined from two with leaves: whichever map is folded into the other, the walk starts
from what the two hold. -/
theorem combine_filled (filled_a : a.len ≠ 0) (filled_b : b.len ≠ 0) :
    ∃ union : HashMap (Nat × Nat) H,
      (∀ known, SoundIn known a.nodes → SoundIn known b.nodes → SoundIn known union) ∧
      (∀ level index, Retains union level index ↔
        Retains a.nodes level index ∨ Retains b.nodes level index) ∧
      combine combineNodes a b = ⟨a.start, a.len + b.len, seamWalk combineNodes a.start a.stop
        (a.start + (a.len + b.len)) (range' 1 depth) union⟩ := by
  rw [combine, if_neg filled_a, if_neg filled_b]
  refine ⟨_, ?_, ?_, rfl⟩
  · intro known sound_a sound_b
    split
    · exact sound_a.union sound_b
    · exact sound_b.union sound_a
  · intro level index
    split
    · exact retains_union
    · rw [retains_union, or_comm]

theorem combine_sound (hashes : Hashes combineNodes known)
    (sound_a : SoundIn known a.nodes) (sound_b : SoundIn known b.nodes) :
    SoundIn known (combine combineNodes a b).nodes := by
  by_cases empty_a : a.len = 0
  · rw [combine_empty_left b empty_a]
    exact sound_b
  by_cases empty_b : b.len = 0
  · rw [combine_empty_right empty_a empty_b]
    exact sound_a
  rcases combine_filled combineNodes empty_a empty_b with ⟨union, sound, _, is_joined⟩
  rw [is_joined]
  exact seamWalk_sound hashes (fun level member => (mem_range'_1.mp member).1)
    (sound known sound_a sound_b)

/-- Joining adds only nodes that straddle the seam. -/
theorem combine_only (filled_a : a.len ≠ 0) (filled_b : b.len ≠ 0)
    (retained : Retains (combine combineNodes a b).nodes level index) :
    Retains a.nodes level index ∨ Retains b.nodes level index ∨
      (level ≤ depth ∧ index = a.stop / 2 ^ level ∧ a.start ≤ index * 2 ^ level ∧
        index < (a.start + (a.len + b.len)) / 2 ^ level) := by
  rcases combine_filled combineNodes filled_a filled_b with
    ⟨union, _, retains, is_joined⟩
  rw [is_joined] at retained
  rcases seamWalk_only retained with held | ⟨listed, is_seam, from_start, to_stop⟩
  · exact ((retains level index).mp held).imp id inl
  · have within := (mem_range'_1.mp listed).2
    refine inr (inr ⟨by omega, is_seam, from_start, ?_⟩)
    exact (Nat.le_div_iff_mul_le (Nat.two_pow_pos level)).mpr to_stop

variable (combineNodes) in
/-- Joining completes the nodes over both, from an index of each level on, where what comes before the
seam has the left children of the nodes that straddle it. -/
theorem combine_complete (first : Nat → Nat) {mid hi : Nat} (filled_a : a.len ≠ 0)
    (filled_b : b.len ≠ 0) (stop_a : a.stop = mid) (stop_b : a.start + (a.len + b.len) = hi)
    (from_first : ∀ level index, first level ≤ index → divCeil a.start (2 ^ level) ≤ index)
    (lefts : ∀ level < depth, ∀ child, child < mid / 2 ^ level →
      child / 2 = mid / 2 ^ (level + 1) → divCeil a.start (2 ^ (level + 1)) ≤ mid / 2 ^ (level + 1) →
      Retains a.nodes level child)
    (complete_a : ∀ level index, Inside first mid level index → Retains a.nodes level index)
    (complete_b : ∀ level index, Inside (fun l => divCeil mid (2 ^ l)) hi level index →
      Retains b.nodes level index) :
    (∀ level index, Retains a.nodes level index ∨ Retains b.nodes level index →
        Retains (combine combineNodes a b).nodes level index) ∧
      ∀ level index, Inside first hi level index →
        Retains (combine combineNodes a b).nodes level index := by
  rcases combine_filled combineNodes filled_a filled_b with
    ⟨union, _, retains, is_joined⟩
  rw [is_joined, stop_b, stop_a]
  have ready : SeamReady a.start mid hi union := by
    intro level within child is_child _ from_start to_stop beside
    have halved_hi := div_two_pow_succ hi level
    rcases beside with before | after
    · exact (retains level child).mpr (inl (lefts level within child before is_child from_start))
    · exact (retains level child).mpr (inr
        (complete_b level child ⟨le_of_lt within, after, by omega⟩))
  have none_below : SeamBuilt a.start mid hi (0 + 1) union := fun below within straddles =>
    absurd (mod_one _) (by
      have bottom : below = 0 := by omega
      rw [bottom] at straddles
      exact straddles)
  rcases seamWalk_built combineNodes (zero_add depth) ready none_below with
    ⟨keeps, built⟩
  refine ⟨fun level index held => keeps level index ((retains level index).mpr held), ?_⟩
  rintro level index ⟨within, from_lo, to_hi⟩
  have above := divCeil_le_div_succ mid level
  by_cases before : index < mid / 2 ^ level
  · exact keeps level index ((retains level index).mpr
      (inl (complete_a level index ⟨within, from_lo, before⟩)))
  by_cases after : divCeil mid (2 ^ level) ≤ index
  · exact keeps level index ((retains level index).mpr
      (inr (complete_b level index ⟨within, after, to_hi⟩)))
  have is_seam : index = mid / 2 ^ level := by omega
  have uneven : mid % 2 ^ level ≠ 0 := fun even => by
    have level_up := divCeil_eq_div_iff.mpr even
    omega
  subst is_seam
  exact built level (by omega) uneven (from_first level _ from_lo) to_hi

/-! ## The carried frontier -/

/-- A finished peak and the ommers above it stay as they are. -/
theorem foldPeaks_of_above {acc : Nat × H} {rest : List (Nat × H)}
    (above : ((acc :: rest).map Prod.fst).Pairwise (· < ·)) :
    foldPeaks combineNodes acc rest = acc :: rest := by
  induction rest generalizing acc with
  | nil => rfl
  | cons next rest ih =>
    rcases pairwise_cons.mp above with ⟨below_rest, ascending⟩
    have differs : ¬ next.1 = acc.1 := ne_of_gt (below_rest next.1 mem_cons_self)
    rw [foldPeaks, if_neg differs, ih ascending]

/-- Closing the rightmost subtree of a frontier gives the subtrees one leaf further. -/
theorem foldPeaks_pastAddrs {node : H} {ommers : List H}
    (same_length : ommers.length = (pastAddrs level index).length) :
    foldPeaks combineNodes (level, node) (((pastAddrs level index).map Prod.fst).zip ommers) =
      ((pastAddrs level (index + 1)).map Prod.fst).zip
        (carryOmmers combineNodes level index node ommers) := by
  induction level, index using half_induction generalizing node ommers with
  | zero level =>
    rw [pastAddrs_zero] at same_length ⊢
    have none : ommers = [] := eq_nil_of_length_eq_zero same_length
    have next := pastAddrs_odd level 0
    rw [pastAddrs_zero] at next
    rw [none, show pastAddrs level (0 + 1) = [(level, 2 * 0)] from next]
    rfl
  | odd level half ih =>
    rw [pastAddrs_odd] at same_length ⊢
    cases ommers with
    | nil => cases same_length
    | cons ommer rest =>
      have next : 2 * half + 1 + 1 = 2 * (half + 1) := by omega
      have halved : (2 * half + 1) / 2 = half := by omega
      rw [next, pastAddrs_even, carryOmmers, if_pos (by omega), halved, map_cons,
        zip_cons_cons, foldPeaks, if_pos rfl]
      exact ih (Nat.succ.inj same_length)
  | even level half positive ih =>
    have placed : carryOmmers combineNodes level (2 * half) node ommers = node :: ommers := by
      cases ommers with
      | nil => rfl
      | cons ommer rest => rw [carryOmmers, if_neg (by omega)]
    have ascending := pastAddrs_pairwise level (2 * half + 1)
    rw [pastAddrs_even] at same_length ⊢
    rw [pastAddrs_odd] at ascending ⊢
    rw [placed, map_cons, zip_cons_cons]
    refine foldPeaks_of_above ?_
    rw [map_cons, map_fst_zip (by rw [length_map]; omega)]
    exact ascending

/-- The peaks of a frontier are at the past siblings of the position after it. -/
theorem frontierToPeaks_eq {frontier : NonEmptyFrontier H} (fits : frontier.position < 2 ^ 64)
    (same_length : frontier.ommers.length = (pastAddrs 0 frontier.position).length) :
    frontierToPeaks combineNodes frontier = ((pastAddrs 0 (frontier.position + 1)).map Prod.fst).zip
        (carryOmmers combineNodes 0 frontier.position frontier.leaf frontier.ommers) := by
  have levels := map_fst_pastAddrs 0 frontier.position fits
  rw [frontierToPeaks, range_eq_range']
  simp only [Nat.sub_zero] at levels
  rw [← levels]
  exact foldPeaks_pastAddrs same_length

/-- Peaks sorted from the highest down are placed where they belong. -/
theorem placePeaks_pastAddrs (level index : Nat) {nodes : List H}
    (same_length : nodes.length = (pastAddrs level index).length) (more : List (Nat × H)) :
    placePeaks 0 ((((pastAddrs level index).map Prod.fst).zip nodes).reverse ++ more) =
      ((pastAddrs level index).zip nodes).reverse ++ placePeaks (index * 2 ^ level) more := by
  induction level, index using half_induction generalizing nodes more with
  | zero level =>
    rw [pastAddrs_zero, zero_mul]
    rfl
  | odd level half ih =>
    rw [pastAddrs_odd] at same_length ⊢
    cases nodes with
    | nil => cases same_length
    | cons node rest =>
      have doubled : half * 2 ^ (level + 1) = 2 * half * 2 ^ level := by
        rw [Nat.pow_succ', ← Nat.mul_assoc, Nat.mul_comm half 2]
      rw [map_cons, zip_cons_cons, zip_cons_cons, reverse_cons,
        reverse_cons, append_assoc, append_assoc, ih (Nat.succ.inj same_length),
        doubled]
      have tiled : (2 * half + 1) * 2 ^ level = 2 * half * 2 ^ level + 2 ^ level :=
        succ_mul _ _
      rw [singleton_append, singleton_append, placePeaks,
        Nat.mul_div_cancel _ (Nat.two_pow_pos level), tiled]
  | even level half positive ih =>
    have doubled : half * 2 ^ (level + 1) = 2 * half * 2 ^ level := by
      rw [Nat.pow_succ', ← Nat.mul_assoc, Nat.mul_comm half 2]
    rw [pastAddrs_even] at same_length ⊢
    rw [ih same_length, doubled]

/-- Sorting what goes up from the highest down reverses it. -/
theorem mergeSort_eq_reverse {peaks : List (Nat × H)}
    (ascending : (peaks.map Prod.fst).Pairwise (· < ·)) :
    (peaks.mergeSort fun a b => b.1 ≤ a.1) = peaks.reverse := by
  have distinct : (peaks.map Prod.fst).Nodup := ascending.imp ne_of_lt
  have sorted : (peaks.mergeSort fun a b => b.1 ≤ a.1).Pairwise
      fun a b => decide (b.1 ≤ a.1) = true := pairwise_mergeSort
    (fun a b c first second => by simp only [decide_eq_true_eq] at *; omega)
    (fun a b => by simp only [Bool.or_eq_true, decide_eq_true_eq]; omega) peaks
  have reversed : peaks.reverse.Pairwise fun a b => decide (b.1 ≤ a.1) = true :=
    pairwise_reverse.mpr
      ((pairwise_map.mp ascending).imp fun below => decide_eq_true (le_of_lt below))
  refine List.Perm.eq_of_pairwise ?_ sorted reversed
    ((mergeSort_perm _ _).trans (reverse_perm _).symm)
  intro a b at_a at_b first second
  refine inj_on_of_nodup_map distinct ((mergeSort_perm _ _).mem_iff.mp at_a)
    (mem_reverse.mp at_b) ?_
  simp only [decide_eq_true_eq] at first second
  omega

/-- The nodes of a carried frontier: its peaks, its tip and its ommers. -/
theorem carrySegment_nodes {frontier : NonEmptyFrontier H} (wellFormed : frontier.WellFormed)
    (fits : frontier.position < 2 ^ 64) : (carrySegment combineNodes (some frontier)).nodes =
      HashMap.insertAll ((HashMap.insertAll ∅ ((pastAddrs 0 (frontier.position + 1)).zip
        (carryOmmers combineNodes 0 frontier.position frontier.leaf frontier.ommers)).reverse).insert
          (0, frontier.position) frontier.leaf)
        ((pastAddrs 0 frontier.position).zip frontier.ommers) := by
  have peaks := wellFormed.length_carryOmmers combineNodes
  have ascending : ((frontierToPeaks combineNodes frontier).map Prod.fst).Pairwise (· < ·) := by
    rw [frontierToPeaks_eq fits wellFormed,
      map_fst_zip (by rw [length_map, peaks])]
    exact pastAddrs_pairwise _ _
  have from_left := placePeaks_pastAddrs 0 (frontier.position + 1) peaks []
  rw [append_nil] at from_left
  have placed : placePeaks 0 ((frontierToPeaks combineNodes frontier).mergeSort
      fun a b => b.1 ≤ a.1) = ((pastAddrs 0 (frontier.position + 1)).zip
        (carryOmmers combineNodes 0 frontier.position frontier.leaf frontier.ommers)).reverse := by
    rw [mergeSort_eq_reverse ascending, frontierToPeaks_eq fits wellFormed, from_left]
    exact append_nil _
  rw [← placed]
  rfl

/-- What the frontier of `position + 1` leaves retains: its peaks, its tip and its ommers. -/
def Retained (position level index : Nat) : Prop :=
  (level, index) ∈ pastAddrs 0 (position + 1) ∨ (level, index) = (0, position) ∨
    (level, index) ∈ pastAddrs 0 position

variable {frontier : NonEmptyFrontier H} {level carry hi size : Nat} {nodes : HashMap (Nat × Nat) H}

variable (combineNodes) in
theorem carrySegment_retains (wellFormed : frontier.WellFormed) (fits : frontier.position < 2 ^ 64)
    {index : Nat} : Retains (carrySegment combineNodes (some frontier)).nodes level index ↔
      Retained frontier.position level index := by
  have none_before : ¬ Retains (∅ : HashMap (Nat × Nat) H) level index := fun held => nomatch held
  rw [carrySegment_nodes wellFormed fits, retains_insertAll, retains_insert, retains_insertAll,
    or_iff_left none_before, map_reverse, mem_reverse,
    map_fst_zip (le_of_eq (wellFormed.length_carryOmmers combineNodes).symm),
    map_fst_zip (le_of_eq (Eq.symm wellFormed)), Retained]
  tauto

theorem carrySegment_sound (hashes : Hashes combineNodes known) (in_known : frontier.In known)
    (fits : frontier.position < 2 ^ 64) :
    SoundIn known (carrySegment combineNodes (some frontier)).nodes := by
  have peaks := carryOmmers_nodesAt hashes in_known.leaf in_known.ommers
  rw [carrySegment_nodes in_known.wellFormed fits]
  refine ((soundIn_empty.insertAll ?_).insert in_known.leaf).insertAll ?_
  · intro pair member
    exact peaks.of_mem_zip (mem_reverse.mp member)
  · intro pair member
    exact in_known.ommers.of_mem_zip member

/-- The left sibling of a subtree that straddles the carry is one of its peaks. -/
theorem left_child_mem_pastAddrs {child : Nat} (before : child < carry / 2 ^ level)
    (is_child : child / 2 = carry / 2 ^ (level + 1)) : (level, child) ∈ pastAddrs 0 carry := by
  have halved := div_two_pow_succ carry level
  refine mem_pastAddrs.mpr ⟨zero_le level, ?_, ?_⟩
  · dsimp only
    rw [Nat.sub_zero]
    omega
  · omega

/-- The nodes that frontiers from a carry up to `hi` are made of. -/
structure Reaches (carry hi : Nat) (nodes : HashMap (Nat × Nat) H) : Prop where
  peaks : ∀ addr ∈ pastAddrs 0 carry, Retains nodes addr.1 addr.2
  tip : 0 < carry → Retains nodes 0 (carry - 1)
  ommers : ∀ addr ∈ pastAddrs 0 (carry - 1), Retains nodes addr.1 addr.2
  complete : ∀ level ≤ depth, ∀ index, carry / 2 ^ level ≤ index → index < hi / 2 ^ level →
    Retains nodes level index

theorem Reaches.leaf (reaches : Reaches carry hi nodes) (from_carry : carry ≤ size)
    (to_hi : size ≤ hi) (filled : 0 < size) : Retains nodes 0 (size - 1) := by
  rcases Nat.lt_or_ge carry size with after | same
  · refine reaches.complete 0 (zero_le depth) (size - 1) ?_ ?_
    · omega
    · rw [Nat.pow_zero, Nat.div_one]
      omega
  · have is_carry : size = carry := by omega
    rw [is_carry]
    exact reaches.tip (by omega)

theorem Reaches.past (reaches : Reaches carry hi nodes) (from_carry : carry ≤ size)
    (to_hi : size ≤ hi) (fits : size ≤ 2 ^ depth) :
    ∀ addr ∈ pastAddrs 0 (size - 1), Retains nodes addr.1 addr.2 := by
  intro addr is_past
  rcases Nat.lt_or_ge carry size with after | same
  · rcases mem_pastAddrs.mp is_past with ⟨_, ends, even⟩
    rw [Nat.sub_zero] at ends
    have low : addr.1 ≤ depth := by
      by_contra high
      have vanishes : (size - 1) / 2 ^ addr.1 = 0 := by
        rw [Nat.div_eq_zero_iff]
        have wider := Nat.pow_le_pow_right Nat.two_pos (Nat.le_of_not_le high)
        omega
      omega
    have past_carry : carry / 2 ^ addr.1 ≤ (size - 1) / 2 ^ addr.1 :=
      Nat.div_le_div_right (by omega)
    have before_hi : (size - 1) / 2 ^ addr.1 ≤ hi / 2 ^ addr.1 :=
      Nat.div_le_div_right (by omega)
    rcases Nat.lt_or_ge addr.2 (carry / 2 ^ addr.1) with peak | later
    · refine reaches.peaks addr (mem_pastAddrs.mpr ⟨zero_le _, ?_, even⟩)
      rw [Nat.sub_zero]
      omega
    · exact reaches.complete addr.1 low addr.2 later (by omega)
  · have is_carry : size = carry := by omega
    rw [is_carry] at is_past
    exact reaches.ommers addr is_past

/-- Every frontier from the carry on can be read, with the nodes of the tree. -/
theorem Reaches.frontierAt {segment : TreeSegment H} (reaches : Reaches carry hi segment.nodes)
    (sound : SoundIn known segment.nodes) (from_carry : carry ≤ size) (to_hi : size ≤ hi)
    (filled : 0 < size) (fits : size ≤ 2 ^ depth) :
    ∃ frontier, segment.frontierAt size = some frontier ∧ frontier.position = size - 1 ∧
      frontier.In known := by
  rcases (reaches.leaf from_carry to_hi filled).node with ⟨leaf, is_leaf⟩
  have each : ∀ addr ∈ pastAddrs 0 (size - 1), ∃ x, segment.nodeAt addr.1 addr.2 = some x ∧
      known addr.1 addr.2 = some x := by
    intro addr is_past
    rcases (reaches.past from_carry to_hi fits addr is_past).node with ⟨x, is_node⟩
    exact ⟨x, is_node, sound _ _ _ is_node⟩
  rcases exists_mapM_eq_some each with ⟨nodes, are_read, are_nodes⟩
  refine ⟨⟨size - 1, leaf, nodes⟩, ?_, rfl, sound _ _ _ is_leaf, are_nodes⟩
  rw [TreeSegment.frontierAt, if_neg (ne_of_gt filled), nodeAt, is_leaf, are_read]
  rfl

end Holds

end TreeSegment

end Zaino.Shielded
