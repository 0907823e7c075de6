import Mathlib.Algebra.Ring.Nat
import Mathlib.Data.List.Forall2

/-!
# Append-only Merkle trees and their frontiers

A tree over a list of leaves, in which the node at a level and an index is the root of the perfect
subtree over `2 ^ level` consecutive leaves. A node exists once all its leaves do
(`merkleNode_isSome`), and from then on never changes (`merkleNode_take`).

A frontier is what an append-only tree must keep: its last leaf and the complete left siblings, the
ommers, on the way from that leaf to the root (`pastAddrs`). Appending a leaf to the frontier of some
leaves gives the frontier of those leaves and the new one (`NonEmptyFrontier.Of.append`).
-/

namespace Library

open List Nat List.Forall₂ Option

variable (n level : Nat)

theorem div_two_pow_succ : n / 2 ^ (level + 1) = n / 2 ^ level / 2 := by
  rw [Nat.pow_succ, Nat.div_div_eq_div_mul]

/-- Division, rounded up. -/
def divCeil (n d : Nat) : Nat := (n + d - 1) / d

theorem divCeil_le_iff {n d k : Nat} (positive : 0 < d) : divCeil n d ≤ k ↔ n ≤ k * d := by
  rw [divCeil, ← Nat.lt_succ_iff, Nat.div_lt_iff_lt_mul positive, Nat.succ_mul]
  omega

@[simp]
theorem divCeil_one (n : Nat) : divCeil n 1 = n := by
  simp [divCeil]

theorem divCeil_two_pow_succ : divCeil n (2 ^ (level + 1)) = (divCeil n (2 ^ level) + 1) / 2 := by
  have positive := Nat.two_pow_pos level
  have shifted : n + 2 ^ (level + 1) - 1 = n + 2 ^ level - 1 + 2 ^ level := by
    omega
  rw [divCeil, divCeil, ← add_div_right _ positive, div_two_pow_succ, shifted]

theorem div_le_divCeil : n / 2 ^ level ≤ divCeil n (2 ^ level) := by
  have positive := Nat.two_pow_pos level
  exact Nat.div_le_div_right (by omega)

theorem divCeil_le_div_succ : divCeil n (2 ^ level) ≤ n / 2 ^ level + 1 := by
  have positive := Nat.two_pow_pos level
  rw [divCeil_le_iff positive, Nat.mul_comm]
  exact le_of_lt (lt_mul_div_succ n positive)

theorem divCeil_eq_div_iff {n level : Nat} :
    divCeil n (2 ^ level) = n / 2 ^ level ↔ n % 2 ^ level = 0 := by
  have positive := Nat.two_pow_pos level
  have above := div_le_divCeil n level
  have split := div_add_mod n (2 ^ level)
  rw [Nat.mul_comm] at split
  constructor
  · intro same
    have within := (divCeil_le_iff positive).mp (le_of_eq same)
    omega
  · intro aligned
    have within : divCeil n (2 ^ level) ≤ n / 2 ^ level := (divCeil_le_iff positive).mpr (by omega)
    omega

variable {H : Type}

/-- The node at a level and an index, where all its leaves exist. -/
def merkleNode (combine : Nat → H → H → H) (leaves : List H) : Nat → Nat → Option H
  | 0, index => leaves[index]?
  | level + 1, index => do
    let left ← merkleNode combine leaves level (2 * index)
    let right ← merkleNode combine leaves level (2 * index + 1)
    some (combine level left right)

variable {combine : Nat → H → H → H} {leaves : List H}

theorem merkleNode_succ {level index : Nat} {x : H} :
    merkleNode combine leaves (level + 1) index = some x ↔
      ∃ left right, merkleNode combine leaves level (2 * index) = some left ∧
        merkleNode combine leaves level (2 * index + 1) = some right ∧
        combine level left right = x := by
  simp [merkleNode, bind_eq_some_iff]

/-- Some nodes at their addresses, in which the parent of two nodes is their hash. -/
def Hashes (combine : Nat → H → H → H) (node : Nat → Nat → Option H) : Prop :=
  ∀ level index left right, node level (2 * index) = some left →
    node level (2 * index + 1) = some right → node (level + 1) index = some (combine level left right)

variable (combine leaves) in
theorem hashes_merkleNode : Hashes combine (merkleNode combine leaves) :=
  fun _ _ left right is_left is_right => merkleNode_succ.mpr ⟨left, right, is_left, is_right, rfl⟩

theorem merkleNode_isSome {level index : Nat} :
    (merkleNode combine leaves level index).isSome ↔ index < leaves.length / 2 ^ level := by
  induction level generalizing index with
  | zero => simp [merkleNode]
  | succ level ih =>
    rw [div_two_pow_succ, isSome_iff_exists]
    constructor
    · intro found
      rcases found with ⟨x, is_node⟩
      rcases merkleNode_succ.mp is_node with ⟨_, right, _, is_right, _⟩
      have within := ih.mp (isSome_iff_exists.mpr ⟨right, is_right⟩)
      omega
    · intro within
      rcases isSome_iff_exists.mp (ih.mpr (show 2 * index < _ by omega)) with
        ⟨left, is_left⟩
      rcases isSome_iff_exists.mp (ih.mpr (show 2 * index + 1 < _ by omega)) with
        ⟨right, is_right⟩
      exact ⟨_, merkleNode_succ.mpr ⟨left, right, is_left, is_right, rfl⟩⟩

variable {level index size : Nat} {x : H}

variable (combine) in
theorem exists_merkleNode (within : index < leaves.length / 2 ^ level) :
    ∃ x, merkleNode combine leaves level index = some x :=
  isSome_iff_exists.mp (merkleNode_isSome.mpr within)

/-- A node depends on its own leaves only. -/
theorem merkleNode_take (within : index < size / 2 ^ level) :
    merkleNode combine (leaves.take size) level index = merkleNode combine leaves level index := by
  induction level generalizing index with
  | zero =>
    rw [Nat.pow_zero, Nat.div_one] at within
    exact getElem?_take_of_lt within
  | succ level ih =>
    rw [div_two_pow_succ] at within
    simp only [merkleNode, ih (show 2 * index < _ by omega),
      ih (show 2 * index + 1 < _ by omega)]

/-- A node that exists stays what it is when leaves are appended. -/
theorem merkleNode_append (is_node : merkleNode combine leaves level index = some x)
    (more : List H) : merkleNode combine (leaves ++ more) level index = some x := by
  have within := merkleNode_isSome.mp (isSome_iff_exists.mpr ⟨x, is_node⟩)
  have same : merkleNode combine ((leaves ++ more).take leaves.length) level index =
      merkleNode combine (leaves ++ more) level index := merkleNode_take within
  rw [take_left' rfl] at same
  rw [← same, is_node]

theorem merkleNode_drop (offset level index : Nat) :
    merkleNode combine (leaves.drop (offset * 2 ^ level)) level index =
      merkleNode combine leaves level (offset + index) := by
  induction level generalizing offset index with
  | zero => rw [merkleNode, merkleNode, Nat.pow_zero, mul_one, getElem?_drop]
  | succ level ih =>
    have doubled : offset * 2 ^ (level + 1) = 2 * offset * 2 ^ level := by
      rw [Nat.pow_succ', ← mul_assoc, Nat.mul_comm offset 2]
    rw [merkleNode, merkleNode, doubled, ih, ih, mul_add, add_assoc]

/-- A node is the root of the perfect tree over its own leaves. -/
theorem merkleNode_eq_root (level index : Nat) : merkleNode combine leaves level index =
      merkleNode combine ((leaves.drop (index * 2 ^ level)).take (2 ^ level)) level 0 := by
  rw [merkleNode_take (by rw [Nat.div_self (Nat.two_pow_pos level)]; exact Nat.one_pos),
    merkleNode_drop, Nat.add_zero]

/-! ## Past siblings -/

/-- The siblings to the left, on the way from a node to the root. -/
def pastAddrs (level index : Nat) : List (Nat × Nat) :=
  if index = 0 then []
  else if index % 2 = 1 then (level, index - 1) :: pastAddrs (level + 1) (index / 2)
  else pastAddrs (level + 1) (index / 2)
termination_by index

theorem pastAddrs_zero (level : Nat) : pastAddrs level 0 = [] := by
  rw [pastAddrs, if_pos rfl]

theorem pastAddrs_odd (level half : Nat) :
    pastAddrs level (2 * half + 1) = (level, 2 * half) :: pastAddrs (level + 1) half := by
  rw [pastAddrs, if_neg (by omega), if_pos (by omega)]
  have halved : (2 * half + 1) / 2 = half := by omega
  rw [halved, Nat.add_sub_cancel]

theorem pastAddrs_even (level half : Nat) :
    pastAddrs level (2 * half) = pastAddrs (level + 1) half := by
  rcases Nat.eq_zero_or_pos half with zero | positive
  · rw [zero, mul_zero, pastAddrs_zero, pastAddrs_zero]
  · rw [pastAddrs, if_neg (by omega), if_neg (by omega)]
    have halved : 2 * half / 2 = half := by omega
    rw [halved]

/-- Induction along the way from a node to the root. -/
theorem half_induction {motive : Nat → Nat → Prop} (zero : ∀ level, motive level 0)
    (odd : ∀ level half, motive (level + 1) half → motive level (2 * half + 1))
    (even : ∀ level half, 0 < half → motive (level + 1) half → motive level (2 * half))
    (level index : Nat) : motive level index := by
  induction index using Nat.strongRecOn generalizing level with
  | ind index ih =>
    rcases Nat.eq_zero_or_pos index with is_zero | positive
    · rw [is_zero]
      exact zero level
    · have smaller : index / 2 < index := by omega
      have rest := ih (index / 2) smaller (level + 1)
      rcases Nat.mod_two_eq_zero_or_one index with is_even | is_odd
      · have split : index = 2 * (index / 2) := by omega
        rw [split]
        exact even level (index / 2) (by omega) rest
      · have split : index = 2 * (index / 2) + 1 := by omega
        rw [split]
        exact odd level (index / 2) rest

/-- The past siblings of a node are at the levels where its ancestors are right children. -/
theorem mem_pastAddrs {addr : Nat × Nat} : addr ∈ pastAddrs level index ↔
      level ≤ addr.1 ∧ index / 2 ^ (addr.1 - level) = addr.2 + 1 ∧ addr.2 % 2 = 0 := by
  induction level, index using half_induction with
  | zero level => simp [pastAddrs_zero]
  | odd level half ih =>
    rw [pastAddrs_odd, mem_cons, ih]
    rcases lt_trichotomy addr.1 level with below | same | above
    · have not_here : addr ≠ (level, 2 * half) := fun is_addr => by
        rw [is_addr] at below
        exact lt_irrefl _ below
      constructor
      · intro found
        rcases found with here | there
        · exact absurd here not_here
        · omega
      · omega
    · have top : addr.1 - level = 0 := by omega
      rw [top, Nat.pow_zero, Nat.div_one, Prod.ext_iff]
      omega
    · have deeper : addr.1 - level = addr.1 - (level + 1) + 1 := by omega
      have halves : (2 * half + 1) / 2 ^ (addr.1 - level) = half / 2 ^ (addr.1 - (level + 1)) := by
        rw [deeper, Nat.pow_succ', ← Nat.div_div_eq_div_mul]
        congr 1
        omega
      have not_here : addr ≠ (level, 2 * half) := fun is_addr => by
        rw [is_addr] at above
        exact lt_irrefl _ above
      rw [halves]
      constructor
      · intro found
        rcases found with here | there
        · exact absurd here not_here
        · exact ⟨le_of_lt above, there.2⟩
      · intro found
        exact Or.inr ⟨above, found.2⟩
  | even level half positive ih =>
    rw [pastAddrs_even, ih]
    rcases lt_trichotomy addr.1 level with below | same | above
    · omega
    · have top : addr.1 - level = 0 := by omega
      rw [top, Nat.pow_zero, Nat.div_one]
      omega
    · have deeper : addr.1 - level = addr.1 - (level + 1) + 1 := by omega
      have halves : 2 * half / 2 ^ (addr.1 - level) = half / 2 ^ (addr.1 - (level + 1)) := by
        rw [deeper, Nat.pow_succ', ← Nat.div_div_eq_div_mul]
        congr 1
        omega
      rw [halves]
      constructor
      · intro found
        exact ⟨le_of_lt above, found.2⟩
      · intro found
        exact ⟨above, found.2⟩

/-- The past siblings go up. -/
theorem pastAddrs_pairwise (level index : Nat) :
    ((pastAddrs level index).map Prod.fst).Pairwise (· < ·) := by
  induction level, index using half_induction with
  | zero level =>
    rw [pastAddrs_zero]
    exact List.Pairwise.nil
  | odd level half ih =>
    rw [pastAddrs_odd, map_cons]
    refine List.Pairwise.cons ?_ ih
    intro above member
    rcases mem_map.mp member with ⟨addr, is_past, rfl⟩
    exact (mem_pastAddrs.mp is_past).1
  | even level half _ ih =>
    rw [pastAddrs_even]
    exact ih

/-- The past siblings are at the levels of the set bits. -/
theorem map_fst_pastAddrs {bits : Nat} (level index : Nat) (fits : index < 2 ^ bits) :
    (pastAddrs level index).map Prod.fst =
      (List.range' level bits).filter fun above => index / 2 ^ (above - level) % 2 = 1 := by
  induction bits generalizing level index with
  | zero =>
    have none : index = 0 := by omega
    rw [none, pastAddrs_zero]
    rfl
  | succ bits ih =>
    have deeper : ((List.range' (level + 1) bits).filter fun above =>
        index / 2 ^ (above - level) % 2 = 1) = (List.range' (level + 1) bits).filter fun above =>
        index / 2 / 2 ^ (above - (level + 1)) % 2 = 1 := by
      refine filter_congr fun above member => ?_
      have beyond := (mem_range'_1.mp member).1
      have step : above - level = above - (level + 1) + 1 := by omega
      rw [step, Nat.pow_succ', Nat.div_div_eq_div_mul]
    have rest := ih (level + 1) (index / 2) (by rw [Nat.pow_succ] at fits; omega)
    rw [range'_succ, filter_cons, deeper, ← rest, Nat.sub_self, Nat.pow_zero, Nat.div_one]
    rcases Nat.mod_two_eq_zero_or_one index with is_even | is_odd
    · have split : index = 2 * (index / 2) := by omega
      rw [if_neg (by simp [is_even])]
      conv_lhs => rw [split, pastAddrs_even]
    · have split : index = 2 * (index / 2) + 1 := by omega
      rw [if_pos (by simp [is_odd])]
      conv_lhs => rw [split, pastAddrs_odd, map_cons]

/-! ## Frontiers -/

/-- The nodes at some addresses. -/
def NodesAt (node : Nat → Nat → Option H) (addrs : List (Nat × Nat)) (nodes : List H) : Prop :=
  List.Forall₂ (fun addr x => node addr.1 addr.2 = some x) addrs nodes

section NodesAt

variable {node : Nat → Nat → Option H} {addrs : List (Nat × Nat)}

theorem NodesAt.unique {first second : List H} (are_first : NodesAt node addrs first)
    (are_second : NodesAt node addrs second) : first = second := by
  induction are_first generalizing second with
  | nil =>
    cases are_second
    rfl
  | cons is_first _ ih =>
    cases are_second with
    | cons is_second rest =>
      rw [some.inj (is_first.symm.trans is_second), ih rest]

theorem NodesAt.length_eq {nodes : List H} (are_nodes : NodesAt node addrs nodes) :
    addrs.length = nodes.length :=
  List.Forall₂.length_eq are_nodes

theorem NodesAt.of_mem_zip {nodes : List H} (are_nodes : NodesAt node addrs nodes)
    {pair : (Nat × Nat) × H} (member : pair ∈ addrs.zip nodes) :
    node pair.1.1 pair.1.2 = some pair.2 :=
  (forall₂_iff_zip.mp are_nodes).2 member

end NodesAt

/-- The nodes of some leaves at some addresses. -/
def AreNodes (combine : Nat → H → H → H) (leaves : List H) (addrs : List (Nat × Nat))
    (nodes : List H) : Prop :=
  List.Forall₂ (fun addr x => merkleNode combine leaves addr.1 addr.2 = some x) addrs nodes

variable {addrs : List (Nat × Nat)} {nodes ommers : List H} {level index : Nat}

theorem AreNodes.nodesAt (are_nodes : AreNodes combine leaves addrs nodes) :
    NodesAt (merkleNode combine leaves) addrs nodes :=
  are_nodes

theorem AreNodes.append (are_nodes : AreNodes combine leaves addrs nodes) (more : List H) :
    AreNodes combine (leaves ++ more) addrs nodes :=
  imp (fun _ _ is_node => merkleNode_append is_node more) are_nodes

/-- The last leaf of a tree, where it is, and the complete left siblings above it. -/
structure NonEmptyFrontier (H : Type) where
  position : Nat
  leaf : H
  ommers : List H
  deriving DecidableEq

/-- A frontier, none for the empty tree. -/
abbrev Frontier (H : Type) : Type := Option (NonEmptyFrontier H)

/-- How many leaves the tree has. -/
def Frontier.treeSize (frontier : Frontier H) : Nat :=
  match frontier with
  | none => 0
  | some nonEmpty => nonEmpty.position + 1

/-- Complete a node: while it is a right child, it completes its parent as well. -/
def carryOmmers (combine : Nat → H → H → H) : Nat → Nat → H → List H → List H
  | _, _, node, [] => [node]
  | level, index, node, ommer :: rest =>
    if index % 2 = 1 then carryOmmers combine (level + 1) (index / 2) (combine level ommer node) rest
    else node :: ommer :: rest

/-- The frontier with one more leaf. -/
def NonEmptyFrontier.append (combine : Nat → H → H → H) (frontier : NonEmptyFrontier H) (leaf : H) :
    NonEmptyFrontier H where
  position := frontier.position + 1
  leaf := leaf
  ommers := carryOmmers combine 0 frontier.position frontier.leaf frontier.ommers

/-- Append a leaf, unless a tree of the given depth is full. -/
def Frontier.append (combine : Nat → H → H → H) (depth : Nat) (frontier : Frontier H) (leaf : H) :
    Option (Frontier H) :=
  match frontier with
  | none => some (some ⟨0, leaf, []⟩)
  | some nonEmpty =>
    if (nonEmpty.position + 1) % 2 ^ depth = 0 then none
    else some (some (nonEmpty.append combine leaf))

/-- The frontier of some leaves. -/
structure NonEmptyFrontier.Of (combine : Nat → H → H → H) (frontier : NonEmptyFrontier H)
    (leaves : List H) : Prop where
  size : frontier.position + 1 = leaves.length
  leaf : merkleNode combine leaves 0 frontier.position = some frontier.leaf
  ommers : AreNodes combine leaves (pastAddrs 0 frontier.position) frontier.ommers

theorem NonEmptyFrontier.Of.unique {first second : NonEmptyFrontier H}
    (of_first : first.Of combine leaves) (of_second : second.Of combine leaves) :
    first = second := by
  have same : first.position = second.position := by
    have sizes := of_first.size.trans of_second.size.symm
    omega
  rcases first with ⟨position, leaf, ommers⟩
  rcases second with ⟨position', leaf', ommers'⟩
  subst same
  have same_leaf : leaf = leaf' := some.inj (of_first.leaf.symm.trans of_second.leaf)
  have same_ommers : ommers = ommers' := of_first.ommers.nodesAt.unique of_second.ommers
  rw [same_leaf, same_ommers]

/-- Completing a node gives the left siblings one node further. -/
theorem carryOmmers_nodesAt {node : Nat → Nat → Option H} (hashes : Hashes combine node) {x : H}
    (is_node : node level index = some x)
    (are_ommers : NodesAt node (pastAddrs level index) ommers) :
    NodesAt node (pastAddrs level (index + 1)) (carryOmmers combine level index x ommers) := by
  induction level, index using half_induction generalizing x ommers with
  | zero level =>
    rw [pastAddrs_zero] at are_ommers
    cases are_ommers
    have next : pastAddrs level (0 + 1) = [(level, 0)] := by
      have odd := pastAddrs_odd level 0
      rw [pastAddrs_zero] at odd
      exact odd
    rw [next]
    exact cons is_node nil
  | odd level half ih =>
    rw [pastAddrs_odd] at are_ommers
    cases are_ommers with
    | cons is_ommer rest =>
      have parent := hashes level half _ _ is_ommer is_node
      have carried := ih parent rest
      have next : 2 * half + 1 + 1 = 2 * (half + 1) := by omega
      have halved : (2 * half + 1) / 2 = half := by omega
      rw [next, pastAddrs_even, carryOmmers, if_pos (by omega), halved]
      exact carried
  | even level half positive ih =>
    have placed : carryOmmers combine level (2 * half) x ommers = x :: ommers := by
      cases ommers with
      | nil => rfl
      | cons ommer rest => rw [carryOmmers, if_neg (by omega)]
    rw [pastAddrs_even] at are_ommers
    rw [pastAddrs_odd, placed]
    exact cons is_node are_ommers

theorem carryOmmers_areNodes {node : H}
    (is_node : merkleNode combine leaves level index = some node)
    (are_ommers : AreNodes combine leaves (pastAddrs level index) ommers) :
    AreNodes combine leaves (pastAddrs level (index + 1))
      (carryOmmers combine level index node ommers) :=
  carryOmmers_nodesAt (hashes_merkleNode combine leaves) is_node are_ommers

/-- Appending a leaf gives the frontier of one leaf more. -/
theorem NonEmptyFrontier.Of.append {frontier : NonEmptyFrontier H}
    (of_leaves : frontier.Of combine leaves) (leaf : H) :
    (frontier.append combine leaf).Of combine (leaves ++ [leaf]) where
  size := by
    rw [length_append, ← of_leaves.size]
    rfl
  leaf := by
    change (leaves ++ [leaf])[frontier.position + 1]? = some leaf
    rw [of_leaves.size, getElem?_concat_length]
  ommers := (carryOmmers_areNodes of_leaves.leaf of_leaves.ommers).append [leaf]

/-- A frontier is that of some leaves. -/
def Frontier.Of (combine : Nat → H → H → H) (frontier : Frontier H) (leaves : List H) : Prop :=
  match frontier with
  | none => leaves = []
  | some nonEmpty => nonEmpty.Of combine leaves

theorem Frontier.Of.treeSize {frontier : Frontier H} (of_leaves : frontier.Of combine leaves) :
    frontier.treeSize = leaves.length := by
  cases frontier with
  | none =>
    rw [show leaves = [] from of_leaves]
    rfl
  | some nonEmpty => exact NonEmptyFrontier.Of.size of_leaves

theorem Frontier.Of.unique {first second : Frontier H} (of_first : first.Of combine leaves)
    (of_second : second.Of combine leaves) : first = second := by
  cases first with
  | none =>
    cases second with
    | none => rfl
    | some nonEmpty =>
      have size := NonEmptyFrontier.Of.size of_second
      rw [show leaves = [] from of_first] at size
      cases size
  | some nonEmpty =>
    cases second with
    | none =>
      have size := NonEmptyFrontier.Of.size of_first
      rw [show leaves = [] from of_second] at size
      cases size
    | some other => rw [NonEmptyFrontier.Of.unique of_first of_second]

/-- A tree that is not full takes one more leaf. -/
theorem Frontier.Of.append {depth : Nat} {frontier : Frontier H}
    (of_leaves : frontier.Of combine leaves) (leaf : H) (fits : leaves.length < 2 ^ depth) :
    ∃ next, frontier.append combine depth leaf = some next ∧
      Frontier.Of combine next (leaves ++ [leaf]) := by
  cases frontier with
  | none =>
    rw [show leaves = [] from of_leaves]
    refine ⟨_, rfl, rfl, rfl, ?_⟩
    rw [pastAddrs_zero]
    exact nil
  | some nonEmpty =>
    have size := NonEmptyFrontier.Of.size of_leaves
    have room : ¬ (nonEmpty.position + 1) % 2 ^ depth = 0 := by
      rw [size, mod_eq_of_lt fits]
      omega
    exact ⟨_, if_neg room, NonEmptyFrontier.Of.append of_leaves leaf⟩

end Library
