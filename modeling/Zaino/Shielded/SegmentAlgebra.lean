import Zaino.Shielded.TreeState

/-!
# The segment algebra against one leaf at a time

The segments of a batch may be joined in any grouping, with the carried frontier as one more segment at the
front. A segment is determined by where it begins (`Origin`), where it ends, and the tree it is taken from:
it retains exactly the nodes `Kept` names (`Built.exact`), each with the tree's value (`Built.sound`). Both
survive joining, so the grouping does not matter, and the frontier read at any size is the one that appending
the leaves one by one leads to.

Nothing is assumed of the carried frontier but that it has an ommer for each past sibling of its position.
-/

namespace Zaino.Shielded

open Library List Nat Or

namespace TreeSegment

variable {H : Type}

/-- Where a segment begins: at a position, or with the frontier of everything before. -/
inductive Origin (H : Type)
  | position (start : Nat)
  | carry (frontier : Frontier H)

namespace Origin

/-- The first leaf position of the segment. -/
def start : Origin H → Nat
  | position start => start
  | carry _ => 0

/-- Where the leaves that are given one by one begin. -/
def size : Origin H → Nat
  | position start => start
  | carry frontier => frontier.treeSize

/-- A carried frontier has an ommer for each past sibling of its position, which the tree has. -/
def WellFormed : Origin H → Prop
  | carry (some frontier) => frontier.WellFormed ∧ frontier.position < 2 ^ depth
  | _ => True

/-- The first node of a level that the leaves after the origin can complete. -/
def first : Origin H → Nat → Nat
  | position start, level => divCeil start (2 ^ level)
  | carry frontier, level => frontier.treeSize / 2 ^ level

/-- What a carried frontier retains by itself. -/
def Held : Origin H → Nat → Nat → Prop
  | carry (some frontier), level, index => Retained frontier.position level index
  | _, _, _ => False

/-- What a segment from the origin up to `hi` retains. -/
def Kept (origin : Origin H) (hi level index : Nat) : Prop :=
  origin.Held level index ∨ Inside origin.first hi level index

/-- The tree has the leaves that follow the origin, and the frontier the origin carries. -/
structure Knows (known : Nat → Nat → Option H) (origin : Origin H) (leaves : List H) : Prop where
  leaves : ∀ index x, origin.size ≤ index → leaves[index - origin.size]? = some x →
    known 0 index = some x
  carried : ∀ frontier, origin = carry (some frontier) → frontier.In known

variable (origin : Origin H)

theorem start_le_size : origin.start ≤ origin.size := by
  cases origin with
  | position start => exact Nat.le_refl start
  | carry frontier => exact Nat.zero_le _

variable {mid : Nat} {known : Nat → Nat → Option H} {origin : Origin H} {before : List H}
  {frontier : Frontier H}

theorem first_le_divCeil (after : origin.size ≤ mid) (level : Nat) :
    origin.first level ≤ divCeil mid (2 ^ level) := by
  have positive := Nat.two_pow_pos level
  cases origin with
  | position start =>
    rw [first, divCeil_le_iff positive]
    exact le_trans after ((divCeil_le_iff positive).mp (Nat.le_refl _))
  | carry frontier =>
    exact le_trans (Nat.div_le_div_right after) (div_le_divCeil mid level)

/-- A node that straddles a later seam, and begins in the segment, is one the leaves complete. -/
theorem first_le_seam {level : Nat} (after : origin.size ≤ mid)
    (from_start : origin.start ≤ mid / 2 ^ level * 2 ^ level) :
    origin.first level ≤ mid / 2 ^ level := by
  cases origin with
  | position start => exact (divCeil_le_iff (Nat.two_pow_pos level)).mpr from_start
  | carry frontier => exact Nat.div_le_div_right after

theorem divCeil_start_le {level index : Nat} (from_first : origin.first level ≤ index) :
    divCeil origin.start (2 ^ level) ≤ index := by
  cases origin with
  | position start => exact from_first
  | carry frontier =>
    rw [divCeil_le_iff (Nat.two_pow_pos level)]
    exact Nat.zero_le _

theorem Knows.left {after : List H}
    (knows : origin.Knows known (before ++ after)) : origin.Knows known before where
  leaves := fun index x from_size is_leaf => knows.leaves index x from_size (by
    rw [List.getElem?_append_left (List.getElem?_eq_some_iff.mp is_leaf).1]
    exact is_leaf)
  carried := knows.carried

theorem Knows.right {after : List H} (knows : origin.Knows known (before ++ after)) :
    (position (origin.size + before.length)).Knows known after where
  leaves := fun index x from_size is_leaf => by
    change origin.size + before.length ≤ index at from_size
    refine knows.leaves index x (by omega) ?_
    rw [getElem?_append_right (by omega), Nat.sub_sub]
    exact is_leaf
  carried := fun frontier is_carry => nomatch is_carry

/-- Every origin, with any leaves after it, is part of a tree. -/
theorem exists_knows (combineNodes : Nat → H → H → H) (wellFormed : origin.WellFormed)
    (leaves : List H) : ∃ known, Hashes combineNodes known ∧ origin.Knows known leaves := by
  -- Without a carried frontier, the leaves alone are given.
  have from_leaves : ∀ start, ∃ known, Hashes combineNodes known ∧ ∀ index x, start ≤ index →
      leaves[index - start]? = some x → known 0 index = some x := fun start =>
    ⟨_, hashes_hashUp combineNodes fun level index =>
      if level = 0 ∧ start ≤ index then leaves[index - start]? else none,
      fun index x from_start is_leaf => by rw [hashUp, if_pos ⟨rfl, from_start⟩, is_leaf]⟩
  cases origin with
  | position start =>
    rcases from_leaves start with ⟨known, hashes, are_leaves⟩
    exact ⟨known, hashes, are_leaves, fun _ is_carry => by cases is_carry⟩
  | carry frontier =>
    cases frontier with
    | none =>
      rcases from_leaves 0 with ⟨known, hashes, are_leaves⟩
      exact ⟨known, hashes, are_leaves, fun _ is_carry => by cases is_carry⟩
    | some nonEmpty =>
      refine ⟨nonEmpty.knownNode combineNodes leaves, hashes_hashUp combineNodes _, ?_, ?_⟩
      · intro index x from_size is_leaf
        change nonEmpty.position + 1 ≤ index at from_size
        have place : index = nonEmpty.position + (index - (nonEmpty.position + 1) + 1) := by omega
        rw [place, nonEmpty.knownNode_leaf, getElem?_cons_succ]
        exact is_leaf
      · intro carried is_carry
        cases is_carry
        exact wellFormed.1.in_knownNode combineNodes leaves

/-- The frontier of some leaves, with leaves after it, is part of their tree. -/
theorem knows_of {combineNodes : Nat → H → H → H} {prior : List H}
    (of_prior : frontier.Of combineNodes prior) (more : List H) :
    (carry frontier).Knows (merkleNode combineNodes (prior ++ more)) more where
  leaves := fun index x from_size is_leaf => by
    have size : (carry frontier).size = prior.length := Frontier.Of.treeSize of_prior
    rw [size] at from_size is_leaf
    rw [merkleNode, getElem?_append_right from_size]
    exact is_leaf
  carried := fun nonEmpty is_carry => by
    cases is_carry
    have of_leaves : nonEmpty.Of combineNodes prior := of_prior
    exact ⟨merkleNode_append of_leaves.leaf more, of_leaves.ommers.append more⟩

theorem wellFormed_carry (wellFormed : frontier.WellFormed)
    (fits : frontier.treeSize ≤ 2 ^ depth) : (carry frontier).WellFormed := by
  cases frontier with
  | none => trivial
  | some nonEmpty => exact ⟨wellFormed nonEmpty rfl, fits⟩

end Origin

open Origin

/-! ## What a segment retains -/

/-- A segment from an origin up to `hi`: its extent, and exactly the nodes it retains. -/
structure Exact (origin : Origin H) (hi : Nat) (segment : TreeSegment H) : Prop where
  ordered : origin.size ≤ hi
  len : segment.len = hi - origin.start
  start : segment.len ≠ 0 → segment.start = origin.start
  retains : ∀ level index, Retains segment.nodes level index ↔ origin.Kept hi level index

variable {combineNodes : Nat → H → H → H}

variable {origin : Origin H} {hi mid : Nat} {segment : TreeSegment H}

/-- An origin without leaves is as good as the position after it. -/
theorem Exact.of_empty (exact_after : Exact (.position origin.size) hi segment)
    (no_leaf : origin.size = origin.start) : Exact origin hi segment := by
  cases origin with
  | position start => exact exact_after
  | carry frontier =>
    cases frontier with
    | none =>
      refine ⟨exact_after.ordered, exact_after.len, exact_after.start, fun level index => ?_⟩
      have nothing : divCeil 0 (2 ^ level) = 0 / 2 ^ level := by
        rw [divCeil_eq_div_iff, zero_mod]
      rw [exact_after.retains]
      change (False ∨ (level ≤ depth ∧ divCeil 0 (2 ^ level) ≤ index ∧ _)) ↔
        (False ∨ (level ≤ depth ∧ 0 / 2 ^ level ≤ index ∧ _))
      rw [nothing]
    | some nonEmpty => exact absurd no_leaf (succ_ne_zero _)

/-- The left child of a node that straddles a seam is retained before it. -/
theorem Exact.left_child (exact_segment : Exact origin mid segment) {level child : Nat}
    (within : level < depth) (before : child < mid / 2 ^ level)
    (is_child : child / 2 = mid / 2 ^ (level + 1))
    (from_start : divCeil origin.start (2 ^ (level + 1)) ≤ mid / 2 ^ (level + 1)) :
    Retains segment.nodes level child := by
  rw [exact_segment.retains]
  by_cases inside : origin.first level ≤ child
  · exact inr ⟨le_of_lt within, inside, before⟩
  · have halved_mid := div_two_pow_succ mid level
    cases origin with
    | position start =>
      have halved := divCeil_two_pow_succ start level
      dsimp only [Origin.first, Origin.start] at inside from_start
      omega
    | carry frontier =>
      cases frontier with
      | none =>
        dsimp only [Origin.first, Frontier.treeSize] at inside
        rw [Nat.zero_div] at inside
        omega
      | some nonEmpty =>
        -- The child ends at the carried leaves' last complete node, so it is one of their peaks.
        have carried : (nonEmpty.position + 1) / 2 ^ level ≤ mid / 2 ^ level :=
          Nat.div_le_div_right exact_segment.ordered
        have halved := div_two_pow_succ (nonEmpty.position + 1) level
        dsimp only [Origin.first, Frontier.treeSize] at inside
        exact inl (inl (left_child_mem_pastAddrs (by omega) (by omega)))

/-- Joining neighbours gives the segment over both. -/
theorem Exact.combine {a b : TreeSegment H} (exact_a : Exact origin mid a)
    (exact_b : Exact (.position mid) hi b) : Exact origin hi (combine combineNodes a b) := by
  have start_le := origin.start_le_size
  have ordered_a := exact_a.ordered
  have ordered_b : mid ≤ hi := exact_b.ordered
  have len_a := exact_a.len
  have len_b : b.len = hi - mid := exact_b.len
  by_cases empty_a : a.len = 0
  · have same : origin.size = mid := by omega
    rw [combine_empty_left b empty_a]
    exact (same ▸ exact_b).of_empty (by omega)
  by_cases empty_b : b.len = 0
  · have same : mid = hi := by omega
    rw [combine_empty_right empty_a empty_b, ← same]
    exact exact_a
  have start_a := exact_a.start empty_a
  have stop_a : a.stop = mid := by
    rw [stop, start_a]
    omega
  have stop_b : a.start + (a.len + b.len) = hi := by omega
  rcases combine_complete combineNodes origin.first empty_a empty_b stop_a stop_b
    (fun level index from_first => start_a ▸ origin.divCeil_start_le from_first)
    (fun level within child before is_child from_start =>
      exact_a.left_child within before is_child (start_a ▸ from_start))
    (fun level index inside => (exact_a.retains level index).mpr (inr inside))
    (fun level index inside => (exact_b.retains level index).mpr (inr inside)) with
    ⟨keeps, complete⟩
  rcases combine_filled combineNodes empty_a empty_b with ⟨_, _, _, is_joined⟩
  refine ⟨le_trans ordered_a ordered_b, ?_, fun _ => ?_, fun level index => ⟨fun held => ?_, ?_⟩⟩
  · rw [is_joined]
    dsimp only
    omega
  · rw [is_joined]
    exact start_a
  · rcases combine_only empty_a empty_b held with in_a | in_b | ⟨within, is_seam, from_start, to_hi⟩
    · rcases (exact_a.retains level index).mp in_a with carried | ⟨within, from_first, to_mid⟩
      · exact inl carried
      · have wider : mid / 2 ^ level ≤ hi / 2 ^ level := Nat.div_le_div_right ordered_b
        exact inr ⟨within, from_first, by omega⟩
    · rcases (exact_b.retains level index).mp in_b with nothing | ⟨within, from_mid, to_hi⟩
      · exact nothing.elim
      · exact inr ⟨within,
          le_trans (origin.first_le_divCeil ordered_a level) from_mid, to_hi⟩
    · rw [stop_a] at is_seam
      rw [start_a, is_seam] at from_start
      rw [stop_b] at to_hi
      exact inr ⟨within, is_seam ▸ origin.first_le_seam ordered_a from_start, to_hi⟩
  · rintro (carried | inside)
    · exact keeps level index (inl ((exact_a.retains level index).mpr (inl carried)))
    · exact complete level index inside

/-! ## Built segments -/

variable (combineNodes) in
/-- The segments that lifting, carrying and joining give, with the leaves they cover after their
origin. -/
inductive Built : Origin H → List H → TreeSegment H → Prop
  | identity (start : Nat) : Built (.position start) [] empty
  | lift {leaves : List H} {start : Nat} {segment : TreeSegment H}
      (lifted : lift combineNodes leaves start = some segment) :
      Built (.position start) leaves segment
  | carry (frontier : Frontier H) : Built (.carry frontier) [] (carrySegment combineNodes frontier)
  | combine {origin : Origin H} {before after : List H} {a b : TreeSegment H}
      (left : Built origin before a)
      (right : Built (.position (origin.size + before.length)) after b) :
      Built origin (before ++ after) (combine combineNodes a b)

namespace Built

variable {origin : Origin H} {leaves : List H} {segment : TreeSegment H}

theorem exact (wellFormed : origin.WellFormed) (built : Built combineNodes origin leaves segment) :
    Exact origin (origin.size + leaves.length) segment := by
  induction built with
  | identity start =>
    refine ⟨Nat.le_refl _, (Nat.sub_self _).symm, fun filled => absurd rfl filled,
      fun level index => ⟨fun held => (nomatch held), ?_⟩⟩
    rintro (nothing | ⟨_, from_start, to_start⟩)
    · exact nothing.elim
    · exact absurd (lt_of_le_of_lt (div_le_divCeil start level)
        (lt_of_le_of_lt from_start to_start)) (lt_irrefl _)
  | @lift leaves start segment lifted =>
    rcases lift_exact combineNodes leaves start with ⟨same, is_same, at_start, len, retains⟩
    cases lifted.symm.trans is_same
    refine ⟨Nat.le_add_right _ _, ?_, fun _ => at_start, fun level index => ?_⟩
    · rw [len]
      exact (Nat.add_sub_cancel_left _ _).symm
    · rw [retains]
      exact (or_iff_right id).symm
  | carry frontier =>
    cases frontier with
    | none =>
      refine ⟨Nat.le_refl _, rfl, fun filled => absurd rfl filled,
        fun level index => ⟨fun held => (nomatch held), ?_⟩⟩
      rintro (nothing | ⟨_, _, to_zero⟩)
      · exact nothing.elim
      · exact absurd to_zero (by change ¬ index < 0 / 2 ^ level; rw [Nat.zero_div]; omega)
    | some nonEmpty =>
      have fits : nonEmpty.position < 2 ^ 64 :=
        Nat.lt_of_lt_of_le wellFormed.2 (Nat.pow_le_pow_right Nat.two_pos (by decide))
      refine ⟨Nat.le_refl _, rfl, fun _ => rfl, fun level index => ?_⟩
      rw [carrySegment_retains combineNodes wellFormed.1 fits]
      refine ⟨inl, ?_⟩
      rintro (held | ⟨_, from_size, to_size⟩)
      · exact held
      · exact absurd to_size (Nat.not_lt_of_le from_size)
  | combine left right left_exact right_exact =>
    rw [length_append, ← add_assoc]
    exact (left_exact wellFormed).combine (right_exact trivial)

theorem sound {known : Nat → Nat → Option H} (wellFormed : origin.WellFormed)
    (built : Built combineNodes origin leaves segment) (hashes : Hashes combineNodes known)
    (knows : origin.Knows known leaves) : SoundIn known segment.nodes := by
  induction built with
  | identity start => exact soundIn_empty
  | lift lifted => exact lift_sound hashes knows.leaves lifted
  | carry frontier =>
    cases frontier with
    | none => exact soundIn_empty
    | some nonEmpty =>
      have fits : nonEmpty.position < 2 ^ 64 :=
        Nat.lt_of_lt_of_le wellFormed.2 (Nat.pow_le_pow_right Nat.two_pos (by decide))
      exact carrySegment_sound hashes (knows.carried nonEmpty rfl) fits
  | combine left right left_sound right_sound =>
    exact combine_sound hashes (left_sound wellFormed knows.left) (right_sound trivial knows.right)

end Built

/-- Segments of one extent that retain the same nodes. Where an empty segment starts is never read. -/
structure Same (a b : TreeSegment H) : Prop where
  len : a.len = b.len
  start : a.len ≠ 0 → a.start = b.start
  nodes : ∀ level index, a.nodeAt level index = b.nodeAt level index

variable {origin : Origin H} {a b : TreeSegment H} {leaves : List H}

theorem Exact.same {known : Nat → Nat → Option H} {hi : Nat} (exact_a : Exact origin hi a)
    (exact_b : Exact origin hi b) (sound_a : SoundIn known a.nodes)
    (sound_b : SoundIn known b.nodes) : Same a b := by
  have len := exact_a.len.trans exact_b.len.symm
  refine ⟨len, fun filled => (exact_a.start filled).trans (exact_b.start (len ▸ filled)).symm, ?_⟩
  intro level index
  have retained : Retains a.nodes level index ↔ Retains b.nodes level index := by
    rw [exact_a.retains, exact_b.retains]
  change a.nodes.lookup (level, index) = b.nodes.lookup (level, index)
  cases in_a : a.nodes.lookup (level, index) with
  | none =>
    have not_b : ¬ Retains b.nodes level index := fun in_b => by
      have held := retained.mpr in_b
      rw [Retains, in_a] at held
      cases held
    exact (Option.not_isSome_iff_eq_none.mp not_b).symm
  | some x =>
    rcases (retained.mp (Option.isSome_iff_exists.mpr ⟨x, in_a⟩)).node with ⟨y, in_b⟩
    have agree := (sound_a _ _ _ in_a).symm.trans (sound_b _ _ _ in_b)
    rw [in_b, agree]

/-- However the leaves after an origin are cut up and joined, the segment over them is the same. -/
theorem Built.same (wellFormed : origin.WellFormed) (built_a : Built combineNodes origin leaves a)
    (built_b : Built combineNodes origin leaves b) : Same a b := by
  rcases exists_knows combineNodes wellFormed leaves with ⟨known, hashes, knows⟩
  exact (built_a.exact wellFormed).same (built_b.exact wellFormed)
    (built_a.sound wellFormed hashes knows) (built_b.sound wellFormed hashes knows)

/-- Joining adjacent segments is associative. -/
theorem combine_assoc {first second third : List H} {c : TreeSegment H}
    (wellFormed : origin.WellFormed) (built_a : Built combineNodes origin first a)
    (built_b : Built combineNodes (.position (origin.size + first.length)) second b)
    (built_c : Built combineNodes (.position (origin.size + first.length + second.length)) third c) :
    Same (combine combineNodes (combine combineNodes a b) c)
      (combine combineNodes a (combine combineNodes b c)) := by
  have left : Built combineNodes origin (first ++ second ++ third)
      (combine combineNodes (combine combineNodes a b) c) := by
    refine (built_a.combine built_b).combine ?_
    rw [length_append, ← add_assoc]
    exact built_c
  have right : Built combineNodes origin (first ++ second ++ third)
      (combine combineNodes a (combine combineNodes b c)) := by
    rw [append_assoc]
    exact built_a.combine (built_b.combine built_c)
  exact left.same wellFormed right

theorem combine_identity {segment : TreeSegment H} (wellFormed : origin.WellFormed)
    (built : Built combineNodes origin leaves segment) :
    Same (combine combineNodes segment empty) segment := by
  have joined := built.combine (Built.identity (origin.size + leaves.length))
  rw [append_nil] at joined
  exact joined.same wellFormed built

/-! ## Any grouping of a batch -/

variable (combineNodes) in
/-- The segments of some blocks, each lifted where the ones before it end. -/
def liftBlocks : Nat → List (List H) → Option (List (TreeSegment H))
  | _, [] => some []
  | start, leaves :: rest => do
    let segment ← lift combineNodes leaves start
    let segments ← liftBlocks (start + leaves.length) rest
    some (segment :: segments)

variable (combineNodes) in
/-- Neighbouring segments, the first from an origin. -/
def BuiltEach : Origin H → List (List H) → List (TreeSegment H) → Prop
  | _, [], segments => segments = []
  | _, _ :: _, [] => False
  | origin, leaves :: rest, segment :: segments =>
    Built combineNodes origin leaves segment ∧
      BuiltEach (.position (origin.size + leaves.length)) rest segments

variable (combineNodes) in
theorem liftBlocks_returns (start : Nat) (blocks : List (List H)) :
    ∃ segments, liftBlocks combineNodes start blocks = some segments ∧
      BuiltEach combineNodes (.position start) blocks segments := by
  induction blocks generalizing start with
  | nil => exact ⟨[], rfl, rfl⟩
  | cons leaves rest ih =>
    rcases lift_exact combineNodes leaves start with ⟨segment, is_segment, _⟩
    rcases ih (start + leaves.length) with ⟨segments, are_segments, built⟩
    refine ⟨segment :: segments, ?_, Built.lift is_segment, built⟩
    rw [liftBlocks, is_segment, are_segments]
    rfl

variable {origin : Origin H} {segments : List (TreeSegment H)} {count : Nat} {frontier : Frontier H}
  {leaves : List H} {segment : TreeSegment H}

/-- Neighbouring segments, split after some of them. -/
theorem BuiltEach.split {blocks : List (List H)}
    (built : BuiltEach combineNodes origin blocks segments) (some_before : 0 < count) :
    BuiltEach combineNodes origin (blocks.take count) (segments.take count) ∧
      BuiltEach combineNodes (.position (origin.size + (blocks.take count).flatten.length))
        (blocks.drop count) (segments.drop count) := by
  induction blocks generalizing origin segments count with
  | nil =>
    rw [show segments = [] from built, take_nil, drop_nil, take_nil, drop_nil]
    exact ⟨rfl, rfl⟩
  | cons leaves rest ih =>
    cases segments with
    | nil => exact built.elim
    | cons segment segments =>
      cases count with
      | zero => exact absurd some_before (lt_irrefl 0)
      | succ count =>
        rcases built with ⟨here, there⟩
        rcases Nat.eq_zero_or_pos count with none_more | some_more
        · subst none_more
          refine ⟨⟨here, rfl⟩, ?_⟩
          simpa using there
        · rcases ih there some_more with ⟨before, after⟩
          refine ⟨⟨here, before⟩, ?_⟩
          rw [take_succ_cons, flatten_cons, length_append, ← add_assoc]
          exact after

/-- Any grouping of neighbouring segments reduces to a segment over all their leaves. -/
theorem BuiltEach.reduce {grouping : Grouping} {blocks : List (List H)}
    (built : BuiltEach combineNodes origin blocks segments)
    (grouped : grouping.operands = blocks.length)
    (nothing : blocks = [] → ∃ start, origin = .position start) :
    ∃ joined, grouping.reduce empty (combine combineNodes) segments = some joined ∧
      Built combineNodes origin blocks.flatten joined := by
  induction grouping generalizing origin blocks segments with
  | identity =>
    have no_block : blocks = [] := eq_nil_of_length_eq_zero grouped.symm
    rcases nothing no_block with ⟨start, rfl⟩
    subst no_block
    rw [show segments = [] from built]
    exact ⟨empty, rfl, Built.identity start⟩
  | operand =>
    rcases length_eq_one_iff.mp grouped.symm with ⟨leaves, rfl⟩
    cases segments with
    | nil => exact built.elim
    | cons segment segments =>
      rcases built with ⟨here, none_after⟩
      rw [show segments = [] from none_after, flatten_cons, flatten_nil, append_nil]
      exact ⟨segment, rfl, here⟩
  | join first second ih_first ih_second =>
    rw [Grouping.operands] at grouped
    rw [Grouping.reduce]
    rcases Nat.eq_zero_or_pos first.operands with none_first | some_first
    · -- Nothing is grouped on the left, so what comes of it has no leaves.
      have on_left : BuiltEach combineNodes (.position 0) [] ([] : List (TreeSegment H)) := rfl
      rcases ih_first on_left none_first fun _ => ⟨0, rfl⟩ with ⟨left, is_left, built_left⟩
      have anywhere : (Origin.position 0 : Origin H).WellFormed := trivial
      have no_leaf : left.len = 0 := (built_left.exact anywhere).len
      rcases ih_second built (by omega) nothing with ⟨right, is_right, built_right⟩
      refine ⟨right, ?_, built_right⟩
      rw [none_first, take_zero, drop_zero, is_left, is_right]
      exact congrArg some (combine_empty_left right no_leaf)
    · rcases built.split some_first with ⟨before, after⟩
      have some_before : blocks.take first.operands ≠ [] := fun none_before => by
        have size := congrArg List.length none_before
        rw [length_take, length_nil] at size
        omega
      rcases ih_first before (by rw [length_take]; omega)
        (fun none_before => absurd none_before some_before) with ⟨left, is_left, built_left⟩
      rcases ih_second after (by rw [length_drop]; omega) (fun _ => ⟨_, rfl⟩) with
        ⟨right, is_right, built_right⟩
      have whole := built_left.combine built_right
      rw [← flatten_append, take_append_drop] at whole
      refine ⟨_, ?_, whole⟩
      rw [is_left, is_right]
      rfl

/-! ## Reading frontiers -/

theorem Built.reaches (wellFormed : (Origin.carry frontier).WellFormed)
    (built : Built combineNodes (.carry frontier) leaves segment) :
    Reaches frontier.treeSize (frontier.treeSize + leaves.length) segment.nodes := by
  have retains := (built.exact wellFormed).retains
  have complete : ∀ level ≤ depth, ∀ index, frontier.treeSize / 2 ^ level ≤ index →
      index < (frontier.treeSize + leaves.length) / 2 ^ level → Retains segment.nodes level index :=
    fun level within index from_size to_hi =>
      (retains level index).mpr (inr ⟨within, from_size, to_hi⟩)
  cases frontier with
  | none =>
    refine ⟨?_, fun filled => absurd filled (lt_irrefl 0), ?_, complete⟩
    · change ∀ addr ∈ pastAddrs 0 0, _
      rw [pastAddrs_zero]
      exact fun _ member => absurd member not_mem_nil
    · change ∀ addr ∈ pastAddrs 0 0, _
      rw [pastAddrs_zero]
      exact fun _ member => absurd member not_mem_nil
  | some nonEmpty =>
    exact ⟨fun addr is_past => (retains _ _).mpr (inl (inl is_past)),
      fun _ => (retains _ _).mpr (inl (inr (inl rfl))),
      fun addr is_past => (retains _ _).mpr (inl (inr (inr is_past))), complete⟩

/-- Reading a stitched segment after some of its leaves gives the frontier of appending them one by
one. -/
theorem Built.poolFrontier (wellFormed : (Origin.carry frontier).WellFormed)
    (built : Built combineNodes (.carry frontier) leaves segment)
    (fits : frontier.treeSize + leaves.length ≤ 2 ^ depth) (within : count ≤ leaves.length) :
    ∃ next, frontier.appendAll combineNodes depth (leaves.take count) = some next ∧
      poolFrontier segment (frontier.treeSize + count) = .ok next := by
  rcases exists_knows combineNodes wellFormed leaves with ⟨known, hashes, knows⟩
  have in_known : frontier.In known := fun nonEmpty is_frontier =>
    knows.carried nonEmpty (congrArg Origin.carry is_frontier)
  have are_leaves : ∀ k x, (leaves.take count)[k]? = some x →
      known 0 (frontier.treeSize + k) = some x := by
    intro k x is_leaf
    have bound := (List.getElem?_eq_some_iff.mp is_leaf).1
    rw [length_take] at bound
    rw [getElem?_take_of_lt (by omega)] at is_leaf
    refine knows.leaves _ x (Nat.le_add_right _ _) ?_
    change leaves[frontier.treeSize + k - frontier.treeSize]? = some x
    rw [Nat.add_sub_cancel_left]
    exact is_leaf
  have taken : (leaves.take count).length = count := by
    rw [length_take, min_eq_left within]
  have room : frontier.treeSize + (leaves.take count).length ≤ 2 ^ depth := by
    omega
  rcases in_known.appendAll hashes are_leaves room with ⟨next, is_next, size, in_next⟩
  rw [taken] at size
  refine ⟨next, is_next, ?_⟩
  rw [Shielded.poolFrontier]
  by_cases none_yet : frontier.treeSize + count = 0
  · have no_next : next = none := in_next.unique (fun _ is_none => nomatch is_none) (by
      rw [size, none_yet]
      rfl)
    rw [if_pos none_yet, no_next]
  · rcases (built.reaches wellFormed).frontierAt (built.sound wellFormed hashes knows)
      (Nat.le_add_right _ count) (by omega) (Nat.pos_of_ne_zero none_yet) (by omega) with
      ⟨read, is_read, position, in_read⟩
    have same : next = some read := in_next.unique
      (fun nonEmpty is_some => by cases is_some; exact in_read) (by
        change _ = read.position + 1
        omega)
    have below : ¬ 2 ^ depth ≤ read.position := by omega
    rw [if_neg none_yet, is_read, same]
    change (if 2 ^ depth ≤ read.position then _ else _) = _
    rw [if_neg below]

/-- The segment algebra is appending one leaf at a time. Whatever frontier is carried, however the leaves
after it are divided into blocks, and however the joins are grouped, the frontier read at the carry and at
each block's end is the one that appending gives. Joining adjacent segments is associative, and the empty
segment is its identity. -/
theorem combine_appends (combineNodes : Nat → H → H → H) :
    (∀ (frontier : Frontier H) (blocks : List (List H)) (grouping : Grouping),
      frontier.WellFormed → frontier.treeSize + blocks.flatten.length ≤ 2 ^ depth →
      grouping.operands = blocks.length + 1 →
      ∃ segments stitched, liftBlocks combineNodes frontier.treeSize blocks = some segments ∧
        grouping.reduce empty (combine combineNodes)
          (carrySegment combineNodes frontier :: segments) = some stitched ∧
        ∀ count ≤ blocks.length, ∃ next,
          frontier.appendAll combineNodes depth (blocks.take count).flatten = some next ∧
          poolFrontier stitched (frontier.treeSize + (blocks.take count).flatten.length) =
            .ok next) ∧
    (∀ (origin : Origin H) (first second third : List H) (a b c : TreeSegment H),
      origin.WellFormed → Built combineNodes origin first a →
      Built combineNodes (.position (origin.size + first.length)) second b →
      Built combineNodes (.position (origin.size + first.length + second.length)) third c →
      Same (combine combineNodes (combine combineNodes a b) c)
        (combine combineNodes a (combine combineNodes b c))) ∧
    (∀ segment, combine combineNodes empty segment = segment) ∧
    ∀ (origin : Origin H) (leaves : List H) (segment : TreeSegment H), origin.WellFormed →
      Built combineNodes origin leaves segment →
      Same (combine combineNodes segment empty) segment := by
  refine ⟨?_, fun _ _ _ _ _ _ _ wellFormed built_a built_b built_c =>
    combine_assoc wellFormed built_a built_b built_c, fun segment => combine_empty_left segment rfl,
    fun _ _ _ wellFormed built => combine_identity wellFormed built⟩
  intro frontier blocks grouping wellFormed fits grouped
  have carries := wellFormed_carry wellFormed (Nat.le_trans (Nat.le_add_right _ _) fits)
  rcases liftBlocks_returns combineNodes frontier.treeSize blocks with
    ⟨segments, are_segments, built_segments⟩
  have built_each : BuiltEach combineNodes (.carry frontier) ([] :: blocks)
      (carrySegment combineNodes frontier :: segments) := ⟨Built.carry frontier, built_segments⟩
  rcases built_each.reduce grouped (fun nothing => nomatch nothing) with
    ⟨stitched, is_stitched, built⟩
  rw [flatten_cons, nil_append] at built
  refine ⟨segments, stitched, are_segments, is_stitched, fun count _ => ?_⟩
  -- The leaves of the first blocks are the first of all leaves.
  have leading : blocks.flatten.take (blocks.take count).flatten.length =
      (blocks.take count).flatten := by
    conv_lhs => rw [← take_append_drop count blocks, flatten_append]
    rw [take_append_of_le_length (by rw [take_append_drop]),
      take_append_drop, take_length]
  have some_of_all : (blocks.take count).flatten.length ≤ blocks.flatten.length := by
    rw [← leading, length_take]
    exact Nat.min_le_right _ _
  rcases built.poolFrontier carries fits some_of_all with ⟨next, is_next, is_read⟩
  rw [leading] at is_next
  exact ⟨next, is_next, is_read⟩

/-- Three leaves are carried, of which only the last is known. -/
theorem combine_appends_sample :
    (∃ segments stitched, liftBlocks (fun level left right => level + 2 * left + 3 * right) 3
        [[1], [], [2, 4]] = some segments ∧
      (Grouping.join (.join .operand .operand) (.join .operand .operand)).reduce empty
        (combine fun level left right => level + 2 * left + 3 * right)
        (carrySegment (fun level left right => level + 2 * left + 3 * right) (some ⟨2, 5, [7]⟩) ::
          segments) = some stitched ∧ ∀ count ≤ 3, ∃ next,
        Frontier.appendAll (fun level left right => level + 2 * left + 3 * right) depth
          (some ⟨2, 5, [7]⟩) (([[1], [], [2, 4]] : List (List Nat)).take count).flatten = some next ∧
        poolFrontier stitched
          (3 + (([[1], [], [2, 4]] : List (List Nat)).take count).flatten.length) = .ok next) ∧
    ∃ a b, lift (fun level left right => level + 2 * left + 3 * right) [1] 3 = some a ∧
      lift (fun level left right => level + 2 * left + 3 * right) [2, 4] 4 = some b ∧ Same
        (combine (fun level left right => level + 2 * left + 3 * right)
          (combine (fun level left right => level + 2 * left + 3 * right) empty a) b)
        (combine (fun level left right => level + 2 * left + 3 * right) empty
          (combine (fun level left right => level + 2 * left + 3 * right) a b)) := by
  have appends := combine_appends fun level left right : Nat => level + 2 * left + 3 * right
  have wellFormed : Frontier.WellFormed (some ⟨2, 5, [7]⟩ : Frontier Nat) := by
    intro nonEmpty is_some
    cases is_some
    simp [NonEmptyFrontier.WellFormed, pastAddrs]
  refine ⟨appends.1 _ _ _ wellFormed (by decide) rfl, ?_⟩
  rcases lift_exact (fun level left right : Nat => level + 2 * left + 3 * right) [1] 3 with
    ⟨a, is_a, _⟩
  rcases lift_exact (fun level left right : Nat => level + 2 * left + 3 * right) [2, 4] 4 with
    ⟨b, is_b, _⟩
  exact ⟨a, b, is_a, is_b, appends.2.1 (.position 3) [] [1] [2, 4] empty a b trivial
    (Built.identity 3) (Built.lift is_a) (Built.lift is_b)⟩

end TreeSegment

end Zaino.Shielded
