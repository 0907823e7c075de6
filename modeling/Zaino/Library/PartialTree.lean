import Zaino.Library.HashMap
import Zaino.Library.MerkleFrontier

/-!
# Trees known in part

A frontier keeps the roots of the subtrees to the left of its tip, and under an arbitrary hash those need
not be the roots of any leaves. What is known of the tree is still a partial assignment of nodes that is
closed under the hash (`Hashes`): the retained nodes, and whatever can be hashed from them (`hashUp`).

Any frontier that has as many ommers as its position has past siblings is the frontier of such a tree, and
leaves that come after it can be added to the tree (`WellFormed.in_knownNode`). The children of an ommer are
never known, because no two ommers are siblings (`WellFormed.knownNode_before`), so nothing stands in an ommer's way.
-/

namespace Library

open List

variable {H : Type} {combine : Nat → H → H → H}

/-- Everything that can be hashed from what is given. -/
def hashUp (combine : Nat → H → H → H) (given : Nat → Nat → Option H) : Nat → Nat → Option H
  | 0, index => given 0 index
  | level + 1, index =>
    match hashUp combine given level (2 * index), hashUp combine given level (2 * index + 1) with
    | some left, some right => some (combine level left right)
    | _, _ => given (level + 1) index

variable (combine) in
theorem hashes_hashUp (given : Nat → Nat → Option H) : Hashes combine (hashUp combine given) := by
  intro level index left right is_left is_right
  rw [hashUp, is_left, is_right]

/-- A node is given, unless it is hashed from two nodes. -/
theorem hashUp_cases {given : Nat → Nat → Option H} {level index : Nat} {x : H}
    (is_node : hashUp combine given level index = some x) :
    given level index = some x ∨ ∃ below right, level = below + 1 ∧
      hashUp combine given below (2 * index + 1) = some right := by
  cases level with
  | zero => exact Or.inl is_node
  | succ below =>
    rw [hashUp] at is_node
    split at is_node
    · next left right _ is_right => exact Or.inr ⟨below, right, rfl, is_right⟩
    · exact Or.inl is_node

/-- What is given is a node where no right child is known. -/
theorem hashUp_of_given {given : Nat → Nat → Option H} {level index : Nat}
    (no_right : ∀ below, level = below + 1 → hashUp combine given below (2 * index + 1) = none) :
    hashUp combine given level index = given level index := by
  cases level with
  | zero => rfl
  | succ below =>
    rw [hashUp, no_right below rfl]
    split
    · next is_right => cases is_right
    · rfl

namespace NonEmptyFrontier

variable {node : Nat → Nat → Option H} {frontier : NonEmptyFrontier H}

/-- As many ommers as there are past siblings. -/
def WellFormed (frontier : NonEmptyFrontier H) : Prop :=
  frontier.ommers.length = (pastAddrs 0 frontier.position).length

/-- The frontier's nodes are nodes of the tree. -/
structure In (node : Nat → Nat → Option H) (frontier : NonEmptyFrontier H) : Prop where
  leaf : node 0 frontier.position = some frontier.leaf
  ommers : NodesAt node (pastAddrs 0 frontier.position) frontier.ommers

theorem In.unique {first second : NonEmptyFrontier H} (in_first : first.In node)
    (in_second : second.In node) (same : first.position = second.position) : first = second := by
  rcases first with ⟨position, leaf, ommers⟩
  rcases second with ⟨position', leaf', ommers'⟩
  subst same
  have same_leaf : leaf = leaf' := Option.some.inj (in_first.leaf.symm.trans in_second.leaf)
  have same_ommers : ommers = ommers' := in_first.ommers.unique in_second.ommers
  rw [same_leaf, same_ommers]

theorem In.wellFormed (in_node : frontier.In node) : frontier.WellFormed :=
  in_node.ommers.length_eq.symm

/-- Appending the tree's next leaf stays in the tree. -/
theorem In.append (in_node : frontier.In node) (hashes : Hashes combine node) {leaf : H}
    (is_leaf : node 0 (frontier.position + 1) = some leaf) :
    (frontier.append combine leaf).In node where
  leaf := is_leaf
  ommers := carryOmmers_nodesAt hashes in_node.leaf in_node.ommers

/-- What a frontier and the leaves after it give. -/
def given (frontier : NonEmptyFrontier H) (more : List H) (level index : Nat) : Option H :=
  if level = 0 ∧ frontier.position ≤ index then (frontier.leaf :: more)[index - frontier.position]?
  else (HashMap.insertAll ∅ ((pastAddrs 0 frontier.position).zip frontier.ommers)).lookup (level, index)

/-- What is known of the tree from a frontier and the leaves after it. -/
def knownNode (combine : Nat → H → H → H) (frontier : NonEmptyFrontier H) (more : List H) :
    Nat → Nat → Option H :=
  hashUp combine (frontier.given more)

theorem knownNode_leaf (frontier : NonEmptyFrontier H) (more : List H) (k : Nat) :
    frontier.knownNode combine more 0 (frontier.position + k) = (frontier.leaf :: more)[k]? := by
  rw [knownNode, hashUp, given, if_pos ⟨rfl, Nat.le_add_right _ _⟩, Nat.add_sub_cancel_left]

theorem right_child_ends (index level : Nat) :
    (2 * index + 1 + 1) * 2 ^ level = (index + 1) * 2 ^ (level + 1) := by
  rw [Nat.pow_succ', ← Nat.mul_assoc, Nat.succ_mul index 2, Nat.mul_comm index 2]

namespace WellFormed

variable {level index : Nat} {x : H} {more : List H} (wellFormed : frontier.WellFormed)

include wellFormed

theorem lookup_ommers :
    (HashMap.insertAll ∅ ((pastAddrs 0 frontier.position).zip frontier.ommers)).lookup (level, index) =
        some x ↔ ((level, index), x) ∈ (pastAddrs 0 frontier.position).zip frontier.ommers := by
  refine HashMap.lookup_insertAll_empty ?_
  have levels : ((pastAddrs 0 frontier.position).map Prod.fst).Nodup :=
    (pastAddrs_pairwise 0 frontier.position).imp Nat.ne_of_lt
  rw [map_fst_zip (Nat.le_of_eq (Eq.symm wellFormed))]
  exact List.Nodup.of_map _ levels

/-- Before the tip, only ommers are given. -/
theorem given_before (is_given : frontier.given more level index = some x)
    (before : (index + 1) * 2 ^ level ≤ frontier.position) : index % 2 = 0 := by
  have not_leaf : ¬ (level = 0 ∧ frontier.position ≤ index) := by
    rintro ⟨rfl, after⟩
    omega
  rw [given, if_neg not_leaf, wellFormed.lookup_ommers] at is_given
  exact (mem_pastAddrs.mp (of_mem_zip is_given).1).2.2

/-- Before the tip, no right child is known. -/
theorem knownNode_before (is_node : frontier.knownNode combine more level index = some x)
    (before : (index + 1) * 2 ^ level ≤ frontier.position) : index % 2 = 0 := by
  induction level generalizing index x with
  | zero => exact wellFormed.given_before is_node before
  | succ level ih =>
    rcases hashUp_cases is_node with is_given | ⟨below, right, same, is_right⟩
    · exact wellFormed.given_before is_given before
    · cases same
      rw [← right_child_ends] at before
      have even := ih is_right before
      omega

/-- A node before the tip is known only as it is given. -/
theorem knownNode_eq_given (before : (index + 1) * 2 ^ level ≤ frontier.position) :
    frontier.knownNode combine more level index = frontier.given more level index := by
  refine hashUp_of_given fun below same => ?_
  subst same
  rw [← right_child_ends] at before
  rw [Option.eq_none_iff_forall_ne_some]
  intro right is_right
  have even := wellFormed.knownNode_before is_right before
  omega

variable (combine) in
/-- A well-formed frontier is one of the tree known from it. -/
theorem in_knownNode (more : List H) : frontier.In (frontier.knownNode combine more) where
  leaf := frontier.knownNode_leaf more 0
  ommers := by
    refine forall₂_iff_zip.mpr ⟨Eq.symm wellFormed, fun {addr x} member => ?_⟩
    rcases mem_pastAddrs.mp (of_mem_zip member).1 with ⟨_, ends, _⟩
    have before : (addr.2 + 1) * 2 ^ addr.1 ≤ frontier.position := by
      rw [← ends]
      exact Nat.div_mul_le_self _ _
    have not_leaf : ¬ (addr.1 = 0 ∧ frontier.position ≤ addr.2) := by
      rintro ⟨bottom, after⟩
      rw [bottom] at before
      omega
    rw [wellFormed.knownNode_eq_given before, given, if_neg not_leaf, wellFormed.lookup_ommers]
    exact member

variable (combine) in
theorem length_carryOmmers :
    (carryOmmers combine 0 frontier.position frontier.leaf frontier.ommers).length =
      (pastAddrs 0 (frontier.position + 1)).length := by
  have in_tree := wellFormed.in_knownNode combine []
  exact (carryOmmers_nodesAt (hashes_hashUp combine _) in_tree.leaf in_tree.ommers).length_eq.symm

end WellFormed

end NonEmptyFrontier

namespace Frontier

variable {node : Nat → Nat → Option H} {frontier : Frontier H} {depth : Nat}

/-- A frontier that is not empty has as many ommers as there are past siblings. -/
def WellFormed (frontier : Frontier H) : Prop :=
  ∀ nonEmpty ∈ frontier, NonEmptyFrontier.WellFormed nonEmpty

/-- The frontier's nodes are nodes of the tree. -/
def In (node : Nat → Nat → Option H) (frontier : Frontier H) : Prop :=
  ∀ nonEmpty ∈ frontier, NonEmptyFrontier.In node nonEmpty

theorem In.unique {first second : Frontier H} (in_first : first.In node) (in_second : second.In node)
    (same : first.treeSize = second.treeSize) : first = second := by
  cases first with
  | none =>
    cases second with
    | none => rfl
    | some nonEmpty => cases same
  | some nonEmpty =>
    cases second with
    | none => cases same
    | some other =>
      rw [(in_first nonEmpty rfl).unique (in_second other rfl) (Nat.succ.inj same)]

theorem In.append (in_node : frontier.In node) (hashes : Hashes combine node) {leaf : H}
    (is_leaf : node 0 frontier.treeSize = some leaf) (room : frontier.treeSize < 2 ^ depth) :
    ∃ next, frontier.append combine depth leaf = some next ∧
      Frontier.treeSize next = frontier.treeSize + 1 ∧ Frontier.In node next := by
  cases frontier with
  | none =>
    refine ⟨_, rfl, rfl, fun nonEmpty is_next => ?_⟩
    cases is_next
    refine ⟨is_leaf, ?_⟩
    rw [pastAddrs_zero]
    exact List.Forall₂.nil
  | some nonEmpty =>
    have not_full : ¬ (nonEmpty.position + 1) % 2 ^ depth = 0 := by
      rw [Nat.mod_eq_of_lt (show nonEmpty.position + 1 < 2 ^ depth from room)]
      exact Nat.succ_ne_zero _
    refine ⟨_, if_neg not_full, rfl, fun grown is_next => ?_⟩
    cases is_next
    exact (in_node nonEmpty rfl).append hashes is_leaf

/-- Append leaves one by one, unless a tree of the given depth is full. -/
def appendAll (combine : Nat → H → H → H) (depth : Nat) (frontier : Frontier H) (leaves : List H) :
    Option (Frontier H) :=
  leaves.foldlM (fun frontier leaf => frontier.append combine depth leaf) frontier

/-- Appending the tree's next leaves stays in the tree. -/
theorem In.appendAll (in_node : frontier.In node) (hashes : Hashes combine node) {leaves : List H}
    (are_leaves : ∀ k x, leaves[k]? = some x → node 0 (frontier.treeSize + k) = some x)
    (fits : frontier.treeSize + leaves.length ≤ 2 ^ depth) :
    ∃ next, frontier.appendAll combine depth leaves = some next ∧
      Frontier.treeSize next = frontier.treeSize + leaves.length ∧ Frontier.In node next := by
  induction leaves generalizing frontier with
  | nil => exact ⟨frontier, rfl, rfl, in_node⟩
  | cons leaf rest ih =>
    rw [length_cons] at fits
    rcases in_node.append hashes (are_leaves 0 leaf rfl)
      (show frontier.treeSize < 2 ^ depth by omega) with ⟨grown, is_grown, size, in_grown⟩
    have are_rest : ∀ k x, rest[k]? = some x → node 0 (Frontier.treeSize grown + k) = some x := by
      intro k x is_leaf
      rw [size, Nat.add_assoc, Nat.add_comm 1 k]
      exact are_leaves (k + 1) x is_leaf
    rcases ih in_grown are_rest (by omega) with ⟨next, is_next, next_size, in_next⟩
    refine ⟨next, ?_, ?_, in_next⟩
    · rw [Frontier.appendAll, foldlM_cons, is_grown]
      exact is_next
    · rw [next_size, size, length_cons]
      omega

theorem Of.wellFormed {leaves : List H} (of_leaves : frontier.Of combine leaves) :
    frontier.WellFormed := fun nonEmpty is_frontier => by
  cases is_frontier
  exact (NonEmptyFrontier.Of.ommers of_leaves).nodesAt.length_eq.symm

/-- Appending leaves to the frontier of some gives the frontier of all of them. -/
theorem Of.appendAll {prior more : List H} (of_prior : frontier.Of combine prior)
    (fits : (prior ++ more).length ≤ 2 ^ depth) :
    ∃ next, frontier.appendAll combine depth more = some next ∧
      Frontier.Of combine next (prior ++ more) := by
  induction more generalizing frontier prior with
  | nil =>
    refine ⟨frontier, rfl, ?_⟩
    rw [append_nil]
    exact of_prior
  | cons leaf rest ih =>
    have longer : prior ++ leaf :: rest = prior ++ [leaf] ++ rest := by simp
    rw [longer] at fits ⊢
    have room : prior.length < 2 ^ depth := by
      rw [length_append, length_append, length_singleton] at fits
      omega
    rcases of_prior.append leaf room with ⟨grown, is_grown, of_grown⟩
    rcases ih of_grown fits with ⟨next, is_next, of_next⟩
    refine ⟨next, ?_, of_next⟩
    rw [Frontier.appendAll, foldlM_cons, is_grown]
    exact is_next

end Frontier

end Library
