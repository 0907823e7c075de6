import Zaino.Indexes.Resume
import Zaino.Store.WatermarkRepair

/-!
# What a watermark repair leaves of the walk-ordered indexes

A repair should leave, in every walk-ordered namespace, exactly the entries that blocks at or below
the corrected height produced, so that indexing resumes above it as on a store that never went
higher. The deleted range is written in eight-byte height keys. On the subtree roots' four-byte keys
it selects every number from one on and never number zero, whatever the heights at which those
subtrees were completed. `repairWatermark_exact_iff` says when that happens to be right.
-/

namespace Zaino.Store

open Library Persistence Lmdb Indexes List StoreReader Watermark Index Nat Edit OrderedMap

/-- The heights whose blocks each index has committed. -/
structure Indexed where
  heights : Namespace → List Nat
  ascending : ∀ name, (heights name).Pairwise (· < ·)
  bounded : ∀ name, ∀ height ∈ heights name, height ≤ maxHeight

/-- A store whose namespaces are those of the index set and hold what the blocks at the indexed
heights put, in the order of the heights. -/
structure Built (store : StoreReader) (set : IndexSet) (indexed : Indexed) (trees : Trees) :
    Prop where
  specs : store.specs = set.namespaceSpecs
  declares : Declares store.keyOrders set
  contents : ∀ index ∈ set.indexes, trees index.name = index.contents (indexed.heights index.name)

/-- The same store had it never gone above `corrected`. -/
def neverAbove (set : IndexSet) (indexed : Indexed) (trees : Trees) (corrected : Height) : Trees :=
  Trees.apply
    (fun name =>
      match set.indexes.find? (fun index => index.name = name) with
      | some index => index.contents ((indexed.heights name).filter (· ≤ corrected.value))
      | none => trees name)
    (stamp corrected)

/-- The repair trimmed exactly: every walk-ordered index holds those of its former entries that
were produced at or below the corrected height, and every walk from the next height is accepted
and ends as on a store that had never gone above it (the scattered indexes too, once the walk has
passed every height that had been indexed). -/
structure TrimsExactly (store : StoreReader) (set : IndexSet) (indexed : Indexed)
    (trees trees' : Trees) (corrected : Height) : Prop where
  kept : ∀ index ∈ set.indexes, index.keyOrder = .walkOrdered → ∀ key value,
    (trees' index.name)[key]? = some value ↔
      (trees index.name)[key]? = some value ∧
        ∃ height ≤ corrected.value, (key, value) ∈ index.entries height
  resumes : ∀ batches stop, Walk set (corrected.value + 1) batches stop →
    ∃ ended ended',
      commitAll store.keyOrders trees' batches = .ok ended ∧
      commitAll store.keyOrders (neverAbove set indexed trees corrected) batches = .ok ended' ∧
      (∀ index ∈ set.indexes, index.keyOrder = .walkOrdered →
        ended index.name = ended' index.name) ∧
      ((∀ index ∈ set.indexes, ∀ height ∈ indexed.heights index.name, height < stop) →
        ended = ended')

/-- A subtree root that is held was completed at or below the height exactly if it is the first. -/
def FirstSubtreeAlone (set : IndexSet) (indexed : Indexed) (corrected : Nat) : Prop :=
  ∀ index ∈ set.indexes, ∀ level leaves root, index.production = .subtree level leaves root →
    ∀ height ∈ indexed.heights index.name,
      ∀ number ∈ completedSubtrees (treeSize leaves height) (leaves height) (2 ^ level),
        (height ≤ corrected ↔ number = 0)

/-! ## The deleted range on the two key layouts -/

theorem trimUpper_eq : trimUpper = bigEndian 8 (2 ^ 64 - 1) := by decide

/-- Height keys: the range is the heights above the corrected one. -/
theorem heightKey_trimmed (corrected : Height) {height : Nat} (bounded : height ≤ maxHeight) :
    ((compare (trimLower corrected) (heightKey height)).isLE &&
      (compare (heightKey height) trimUpper).isLT) = true ↔
        corrected.value < height := by
  have corrected_bounded := corrected.bounded
  unfold maxHeight at bounded corrected_bounded
  have lower : compare (trimLower corrected) (heightKey height) =
      compare (corrected.value + 1) height := compare_bigEndian 8 _ _ (by omega) (by omega)
  have upper : compare (heightKey height) trimUpper = .lt := by
    rw [trimUpper_eq, heightKey, compare_bigEndian 8 _ _ (by omega) (by omega)]
    exact Nat.compare_eq_lt.mpr (by omega)
  rw [lower, upper, Bool.and_eq_true, Nat.isLE_compare]
  exact ⟨fun inside => inside.1, fun above => ⟨above, rfl⟩⟩

/-- Subtree keys: the range is every number but zero. -/
theorem subtreeKey_trimmed (corrected : Height) {number : Nat} (fits : number < 2 ^ 32) :
    ((compare (trimLower corrected) (subtreeKey number)).isLE &&
      (compare (subtreeKey number) trimUpper).isLT) = true ↔ number ≠ 0 := by
  have corrected_bounded := corrected.bounded
  unfold maxHeight at corrected_bounded
  have leading : (corrected.value + 1) / 256 ^ 4 = 0 := div_eq_of_lt (by omega)
  have lower : compare (subtreeKey number) (trimLower corrected) =
      (compare number 0).then .lt := by
    have against := compare_bigEndian_leading 4 4 number (corrected.value + 1) (by omega)
      (by omega) (by rw [leading]; omega)
    rwa [leading] at against
  have upper : compare (subtreeKey number) trimUpper = .lt := by
    have against := compare_bigEndian_leading 4 4 number (2 ^ 64 - 1) (by omega) (by omega)
      (by decide)
    rw [trimUpper_eq, subtreeKey, against]
    rcases lt_or_ge number ((2 ^ 64 - 1) / 256 ^ 4) with less | last
    · rw [Nat.compare_eq_lt.mpr less]
      rfl
    · rw [Nat.compare_eq_eq.mpr (by omega)]
      rfl
  have swapped : (compare (trimLower corrected) (subtreeKey number)).isLE = true ↔
      number ≠ 0 := by
    rw [Std.OrientedOrd.eq_swap, lower]
    cases number with
    | zero => decide
    | succ number =>
      rw [Nat.compare_eq_gt.mpr (Nat.succ_pos number)]
      simp
  rw [upper, Bool.and_eq_true, swapped]
  simp

/-! ## What is kept -/

variable {index : Index}

/-- An entry of a walk-ordered index is produced at one height only. -/
theorem height_unique (fit : index.SubtreesFit)
    (walk : index.keyOrder = .walkOrdered) {a b : Nat} (a_bounded : a ≤ maxHeight)
    (b_bounded : b ≤ maxHeight) {key : RawKey} {value value' : RawValue}
    (a_produced : (key, value) ∈ index.entries a) (b_produced : (key, value') ∈ index.entries b) :
    a = b := by
  rcases lt_trichotomy a b with less | same | more
  · have ascending := entries_ascend fit walk less b_bounded a_produced b_produced
    simp at ascending
  · exact same
  · have ascending := entries_ascend fit walk more a_bounded b_produced a_produced
    simp at ascending

variable {heights : List Nat}

/-- One index is trimmed exactly if the range selects the entries produced above the corrected
height. -/
theorem trimRange_exact_iff (fit : index.SubtreesFit) (walk : index.keyOrder = .walkOrdered)
    (ascending : heights.Pairwise (· < ·)) (bounded : ∀ height ∈ heights, height ≤ maxHeight)
    (corrected : Height) (lower upper : RawKey) :
    (∀ key value, ((index.contents heights).trimRange lower upper)[key]? = some value ↔
      (index.contents heights)[key]? = some value ∧
        ∃ height ≤ corrected.value, (key, value) ∈ index.entries height) ↔
    ∀ height ∈ heights, ∀ entry ∈ index.entries height,
      ((compare lower entry.1).isLE && (compare entry.1 upper).isLT) = true ↔
        corrected.value < height := by
  have corrected_bounded := corrected.bounded
  have held_iff : ∀ key value, (index.contents heights)[key]? = some value ↔
      ∃ height ∈ heights, (key, value) ∈ index.entries height := fun key value =>
    getElem?_contents fit walk ascending bounded
  constructor
  · intro kept height member entry produced
    have exact := kept entry.1 entry.2
    have held := (held_iff entry.1 entry.2).mpr ⟨height, member, produced⟩
    rw [getElem?_trimRange] at exact
    constructor
    · intro inside
      rw [if_pos inside] at exact
      rcases lt_or_ge corrected.value height with above | within
      · exact above
      · cases exact.mpr ⟨held, height, within, produced⟩
    · intro above
      by_contra outside
      rw [if_neg outside] at exact
      obtain ⟨_, low, low_le, low_produced⟩ := exact.mp held
      have same := height_unique fit walk (by omega) (bounded height member) low_produced produced
      omega
  · intro selected key value
    rw [getElem?_trimRange]
    constructor
    · intro left
      split at left
      · cases left
      · next outside =>
        obtain ⟨height, member, produced⟩ := (held_iff key value).mp left
        refine ⟨left, height, ?_, produced⟩
        rcases lt_or_ge corrected.value height with above | within
        · exact absurd ((selected height member _ produced).mpr above) outside
        · exact within
    · rintro ⟨held, low, low_le, low_produced⟩
      obtain ⟨height, member, produced⟩ := (held_iff key value).mp held
      have same := height_unique fit walk (by omega) (bounded height member) low_produced produced
      rw [if_neg]
      · exact held
      · intro inside
        have above := (selected height member _ produced).mp inside
        omega

/-- On height keys the range selects right; on subtree keys it does when number zero is the only
one completed at or below the corrected height. -/
theorem selects_iff (fit : index.SubtreesFit) (walk : index.keyOrder = .walkOrdered)
    (bounded : ∀ height ∈ heights, height ≤ maxHeight) (corrected : Height) :
    (∀ height ∈ heights, ∀ entry ∈ index.entries height,
      ((compare (trimLower corrected) entry.1).isLE &&
        (compare entry.1 trimUpper).isLT) = true ↔ corrected.value < height) ↔
    ∀ level leaves root, index.production = .subtree level leaves root → ∀ height ∈ heights,
      ∀ number ∈ completedSubtrees (treeSize leaves height) (leaves height) (2 ^ level),
        (height ≤ corrected.value ↔ number = 0) := by
  cases produced : index.production with
  | scattered entries => simp [keyOrder, produced] at walk
  | height value =>
    constructor
    · intro _ level leaves root absurd
      cases absurd
    · intro _ height member entry listed
      rw [((entries_height produced).mp listed).1]
      exact heightKey_trimmed corrected (bounded height member)
  | subtree level leaves root =>
    have key_trimmed : ∀ {height number : Nat},
        number ∈ completedSubtrees (treeSize leaves height) (leaves height) (2 ^ level) →
          (((compare (trimLower corrected) (subtreeKey number)).isLE &&
            (compare (subtreeKey number) trimUpper).isLT) = true ↔ number ≠ 0) :=
      fun completed => subtreeKey_trimmed corrected (subtree_lt fit produced completed)
    constructor
    · intro selected level' leaves' root' same height member number completed
      cases same
      have chosen := selected height member _ ((entries_subtree produced).mpr
        ⟨number, completed, rfl⟩)
      rw [key_trimmed completed] at chosen
      omega
    · intro alone height member entry listed
      obtain ⟨number, completed, rfl⟩ := (entries_subtree produced).mp listed
      have first := alone level leaves root rfl height member number completed
      rw [key_trimmed completed]
      omega

/-! ## The repaired store and the store that never went higher -/

/-- The trees that a repair to `corrected` leaves. -/
def repaired (store : StoreReader) (trees : Trees) (corrected : Height) : Trees :=
  Trees.apply (trimmedTrees store.specs (trimLower corrected)
    trimUpper trees) (stamp corrected)

section

variable {store : StoreReader} {set : IndexSet} {indexed : Indexed} {trees : Trees}

theorem apply_stamp_of_ne (base : Trees) (height : Height) {name : Namespace}
    (other : name ≠ Watermark.name) : base.apply (stamp height) name = base name :=
  Function.update_of_ne other _ _

variable (built : Built store set indexed trees) (corrected : Height)

include built

variable {index : Index} (member : index ∈ set.indexes)

include member

theorem walkOrdered_mem_specs :
    (⟨index.name, .walkOrdered⟩ : NamespaceSpec) ∈ store.specs ↔ index.keyOrder = .walkOrdered := by
  rw [built.specs, IndexSet.namespaceSpecs, mem_map]
  constructor
  · rintro ⟨other, other_member, spec⟩
    have named : other.name = index.name := congrArg NamespaceSpec.name spec
    have order : other.keyOrder = .walkOrdered := congrArg NamespaceSpec.keyOrder spec
    rwa [IndexSet.eq_of_name other_member member named] at order
  · intro walk
    exact ⟨index, member, by rw [walk]⟩

theorem repaired_walkOrdered (walk : index.keyOrder = .walkOrdered) :
    repaired store trees corrected index.name =
      (index.contents (indexed.heights index.name)).trimRange (trimLower corrected)
        trimUpper := by
  rw [repaired, apply_stamp_of_ne _ _ (set.unreserved index member).1, trimmedTrees,
    if_pos ((walkOrdered_mem_specs built member).mpr walk), built.contents index member]

theorem repaired_scattered (scattered : index.keyOrder ≠ .walkOrdered) :
    repaired store trees corrected index.name = index.contents (indexed.heights index.name) := by
  rw [repaired, apply_stamp_of_ne _ _ (set.unreserved index member).1, trimmedTrees,
    if_neg (mt (walkOrdered_mem_specs built member).mp scattered), built.contents index member]

omit built in
theorem neverAbove_index : neverAbove set indexed trees corrected index.name =
      index.contents ((indexed.heights index.name).filter (· ≤ corrected.value)) := by
  rw [neverAbove, apply_stamp_of_ne _ _ (set.unreserved index member).1]
  cases found : set.indexes.find? (fun other => other.name = index.name) with
  | none =>
    have absent := find?_eq_none.mp found index member
    simp at absent
  | some other =>
    have named : other.name = index.name := by simpa using find?_some found
    rw [IndexSet.eq_of_name (mem_of_find?_eq_some found) member named]

omit member

/-- Outside the indexes both stores are alike. -/
theorem repaired_eq_neverAbove {name : Namespace}
    (unindexed : ∀ index ∈ set.indexes, index.name ≠ name) :
    repaired store trees corrected name = neverAbove set indexed trees corrected name := by
  have unlisted : (⟨name, .walkOrdered⟩ : NamespaceSpec) ∉ store.specs := by
    rw [built.specs, IndexSet.namespaceSpecs, mem_map]
    rintro ⟨index, member, spec⟩
    exact unindexed index member (congrArg NamespaceSpec.name spec)
  have unfound : set.indexes.find? (fun index => index.name = name) = none := by
    apply find?_eq_none.mpr
    intro index member
    simpa using unindexed index member
  apply Trees.apply_congr
  rw [trimmedTrees, if_neg unlisted, unfound]

/-- Where an index was trimmed exactly, the two stores hold the same entries of it. -/
theorem repaired_eq_of_kept (member : index ∈ set.indexes) (walk : index.keyOrder = .walkOrdered)
    (kept : ∀ key value, (repaired store trees corrected index.name)[key]? = some value ↔
      (trees index.name)[key]? = some value ∧
        ∃ height ≤ corrected.value, (key, value) ∈ index.entries height) :
    repaired store trees corrected index.name = neverAbove set indexed trees corrected index.name := by
  have fit := set.subtreesFit index member
  have bounded := indexed.bounded index.name
  have ascending := indexed.ascending index.name
  have corrected_bounded := corrected.bounded
  rw [neverAbove_index corrected member]
  apply Std.ExtTreeMap.ext_getElem?
  intro key
  apply Option.ext
  intro value
  rw [kept, built.contents index member, getElem?_contents fit walk ascending bounded,
    getElem?_contents fit walk (ascending.filter _)
      fun height listed => bounded height (mem_filter.mp listed).1]
  constructor
  · rintro ⟨⟨height, listed, produced⟩, low, low_le, low_produced⟩
    have same := height_unique fit walk (by omega) (bounded height listed) low_produced produced
    subst same
    exact ⟨low, mem_filter.mpr ⟨listed, by simpa using low_le⟩, produced⟩
  · rintro ⟨height, listed, produced⟩
    obtain ⟨member', low⟩ := mem_filter.mp listed
    exact ⟨⟨height, member', produced⟩, height, by simpa using low, produced⟩

end

/-- The entries put above a height leave alone the keys that they do not name. -/
theorem latest_contents_filter {corrected : Nat} {key : RawKey}
    (unnamed : ∀ height ∈ heights, corrected < height → ∀ entry ∈ index.entries height,
      entry.1 ≠ key) : latest (puts (heights.flatMap index.entries)) key =
      latest (puts ((heights.filter (· ≤ corrected)).flatMap index.entries)) key := by
  induction heights with
  | nil => rfl
  | cons height heights ih =>
    have rest := ih fun later member => unnamed later (mem_cons_of_mem _ member)
    rw [flatMap_cons, puts_append, latest_append, rest]
    by_cases low : height ≤ corrected
    · rw [filter_cons_of_pos (by simpa using low), flatMap_cons, puts_append,
        latest_append]
    · rw [filter_cons_of_neg (by simpa using low)]
      have none_named : latest (puts (index.entries height)) key = none := by
        apply latest_eq_none.mpr
        intro e listed
        obtain ⟨entry, entry_listed, rfl⟩ := mem_map.mp listed
        exact unnamed height mem_cons_self (by omega) entry entry_listed
      rw [none_named, Option.or_none]

/-! ## Resuming -/

section

variable {store : StoreReader} {set : IndexSet} {indexed : Indexed} {trees : Trees}
  (built : Built store set indexed trees) (corrected : Height)

include built

/-- Once a walk has passed every indexed height, the scattered indexes agree again: the walk has put
every entry anew that the other store had not yet. -/
theorem applyAll_scattered {index : Index} (member : index ∈ set.indexes)
    (scattered : index.keyOrder ≠ .walkOrdered) {batches : List (List WriteOp)} {stop : Nat}
    (walked : Walk set (corrected.value + 1) batches stop)
    (passed : ∀ height ∈ indexed.heights index.name, height < stop) :
    (repaired store trees corrected).applyAll batches.flatten index.name =
      (neverAbove set indexed trees corrected).applyAll batches.flatten index.name := by
  apply Std.ExtTreeMap.ext_getElem?
  intro key
  rw [Trees.applyAll_tree, Trees.applyAll_tree, repaired_scattered built corrected member scattered,
    neverAbove_index corrected member, getElem?_editAll, getElem?_editAll]
  cases found : latest (WriteOp.editsFor index.name batches.flatten) key with
  | some written => rfl
  | none =>
    have unnamed : ∀ height ∈ indexed.heights index.name, corrected.value < height →
        ∀ entry ∈ index.entries height, entry.1 ≠ key := by
      intro height listed above entry produced named
      have put := walked.writes member above (passed height listed) produced
      have edit : (⟨entry.1, some entry.2⟩ : Edit RawKey RawValue) ∈
          WriteOp.editsFor index.name batches.flatten :=
        mem_map.mpr ⟨_, mem_filter.mpr ⟨put, by simp [WriteOp.target]⟩, rfl⟩
      exact latest_eq_none.mp found _ edit named
    rw [Option.getD_none, Option.getD_none, contents, contents,
      getElem?_editAll, getElem?_editAll, latest_contents_filter unnamed]

/-- Where every walk-ordered index was trimmed exactly, every walk from the next height is accepted
and ends as on the store that never went higher. -/
theorem resumes_of_kept (kept : ∀ index ∈ set.indexes, index.keyOrder = .walkOrdered → ∀ key value,
      (repaired store trees corrected index.name)[key]? = some value ↔
        (trees index.name)[key]? = some value ∧
          ∃ height ≤ corrected.value, (key, value) ∈ index.entries height)
    {batches : List (List WriteOp)} {stop : Nat}
    (walked : Walk set (corrected.value + 1) batches stop) : ∃ ended ended',
      commitAll store.keyOrders (repaired store trees corrected) batches = .ok ended ∧
      commitAll store.keyOrders (neverAbove set indexed trees corrected) batches = .ok ended' ∧
      (∀ index ∈ set.indexes, index.keyOrder = .walkOrdered →
        ended index.name = ended' index.name) ∧
      ((∀ index ∈ set.indexes, ∀ height ∈ indexed.heights index.name, height < stop) →
        ended = ended') := by
  have same : ∀ index ∈ set.indexes, index.keyOrder = .walkOrdered →
      repaired store trees corrected index.name =
        neverAbove set indexed trees corrected index.name := fun index member walk =>
    repaired_eq_of_kept built corrected member walk (kept index member walk)
  have below : ∀ index ∈ set.indexes, index.keyOrder = .walkOrdered →
      index.Below (corrected.value + 1) (repaired store trees corrected index.name) := by
    intro index member walk key held
    obtain ⟨value, is_value⟩ := Option.isSome_iff_exists.mp
      (Std.ExtTreeMap.mem_iff_isSome_getElem?.mp held)
    obtain ⟨_, height, low, produced⟩ := (kept index member walk key value).mp is_value
    exact ⟨height, by omega, value, produced⟩
  have never_below : ∀ index ∈ set.indexes, index.keyOrder = .walkOrdered →
      index.Below (corrected.value + 1) (neverAbove set indexed trees corrected index.name) := by
    intro index member walk
    rw [← same index member walk]
    exact below index member walk
  have agree : ∀ index ∈ set.indexes, index.keyOrder = .walkOrdered →
      (repaired store trees corrected).applyAll batches.flatten index.name =
        (neverAbove set indexed trees corrected).applyAll batches.flatten index.name := by
    intro index member walk
    rw [Trees.applyAll_tree, Trees.applyAll_tree, same index member walk]
  refine ⟨_, _, commitAll_walk built.declares walked below,
    commitAll_walk built.declares walked never_below, agree, ?_⟩
  intro passed
  funext name
  by_cases indexed_name : ∃ index ∈ set.indexes, index.name = name
  · obtain ⟨index, member, rfl⟩ := indexed_name
    by_cases walk : index.keyOrder = .walkOrdered
    · exact agree index member walk
    · exact applyAll_scattered built corrected member walk walked (passed index member)
  · rw [Trees.applyAll_tree, Trees.applyAll_tree, repaired_eq_neverAbove built corrected]
    intro index member named
    exact indexed_name ⟨index, member, named⟩

/-- A repair to `corrected` trims exactly if and only if subtree zero is the only one of those held
that was completed at or below it. -/
theorem trimsExactly_repaired_iff :
    TrimsExactly store set indexed trees (repaired store trees corrected) corrected ↔
      FirstSubtreeAlone set indexed corrected.value := by
  have kept_iff : ∀ index ∈ set.indexes, index.keyOrder = .walkOrdered →
      ((∀ key value, (repaired store trees corrected index.name)[key]? = some value ↔
        (trees index.name)[key]? = some value ∧
          ∃ height ≤ corrected.value, (key, value) ∈ index.entries height) ↔
      ∀ level leaves root, index.production = .subtree level leaves root →
        ∀ height ∈ indexed.heights index.name,
          ∀ number ∈ completedSubtrees (treeSize leaves height) (leaves height) (2 ^ level),
            (height ≤ corrected.value ↔ number = 0)) := by
    intro index member walk
    have fit := set.subtreesFit index member
    rw [repaired_walkOrdered built corrected member walk, built.contents index member,
      trimRange_exact_iff fit walk (indexed.ascending index.name) (indexed.bounded index.name),
      selects_iff fit walk (indexed.bounded index.name)]
  constructor
  · intro trims index member level leaves root produced
    have walk : index.keyOrder = .walkOrdered := by rw [keyOrder, produced]
    exact (kept_iff index member walk).mp (trims.kept index member walk) level leaves root produced
  · intro alone
    have kept : ∀ index ∈ set.indexes, index.keyOrder = .walkOrdered → ∀ key value,
        (repaired store trees corrected index.name)[key]? = some value ↔
          (trees index.name)[key]? = some value ∧
            ∃ height ≤ corrected.value, (key, value) ∈ index.entries height :=
      fun index member walk => (kept_iff index member walk).mpr (alone index member)
    exact ⟨kept, fun batches stop walked => resumes_of_kept built corrected kept walked⟩

/-- A repair that reports a correction trims exactly if and only if, where the stamp belongs by the
headers that are held, subtree zero is the only one held that was completed at or below it. -/
theorem repairWatermark_exact_iff {trees' : Trees} {repair : WatermarkRepair}
    (returned : store.repairWatermark.Returns trees (some repair) trees') :
    TrimsExactly store set indexed trees trees' repair.corrected ↔
      ∀ claimed corrected, Watermark.read trees = some claimed →
        StoreReader.RepairPoint (store.HoldsHeader trees) claimed.value corrected →
          FirstSubtreeAlone set indexed corrected := by
  obtain ⟨stamped, point, rfl⟩ := StoreReader.repairWatermark_returns returned
  refine (trimsExactly_repaired_iff built repair.corrected).trans ⟨?_, ?_⟩
  · intro alone claimed corrected read other_point
    rw [stamped] at read
    cases read
    rwa [other_point.unique point]
  · intro alone
    exact alone repair.claimed repair.corrected.value stamped point

end

/-! ## A root that is lost -/

def subtreesName : Namespace := ⟨"subtrees_sapling".toUTF8.toList⟩

/-- Block 1 fills the first subtree and block 2 appends `second` leaves. -/
def sampleLeaves (second : Nat) : Nat → Nat
  | 1 => 2 ^ 16
  | 2 => second
  | _ => 0

def sampleHeaders : Index := ⟨headersName, .height fun height => some [UInt8.ofNat height]⟩

def sampleSubtrees (second : Nat) : Index :=
  ⟨subtreesName, .subtree 16 (sampleLeaves second) fun number height =>
    [UInt8.ofNat number, UInt8.ofNat height]⟩

theorem sampleLeaves_fit {second : Nat} (small : second ≤ 2 ^ 16) :
    (sampleSubtrees second).SubtreesFit := by
  intro level leaves root produced height
  cases produced
  have bounded : treeSize (sampleLeaves second) height ≤ 2 ^ 17 := by
    rcases lt_or_ge height 3 with early | late
    · exact le_trans (treeSize_mono _ (le_of_lt early)) (by
        simp only [treeSize, sampleLeaves]
        omega)
    · induction late with
      | refl =>
        simp only [treeSize, sampleLeaves]
        omega
      | @step height late ih =>
        have idle : sampleLeaves second height = 0 := by
          match height, late with
          | height + 3, _ => rfl
        rw [treeSize, idle]
        exact ih
  omega

def sampleSet (second : Nat) (small : second ≤ 2 ^ 16) : IndexSet where
  indexes := [sampleHeaders, sampleSubtrees second]
  distinct := by
    simp only [map_cons, map_nil, sampleHeaders, sampleSubtrees]
    decide +kernel
  unreserved := by
    intro index member
    simp only [mem_cons, not_mem_nil, or_false] at member
    rcases member with rfl | rfl
    · simp only [sampleHeaders]
      decide +kernel
    · simp only [sampleSubtrees]
      decide +kernel
  subtreesFit := by
    intro index member
    simp only [mem_cons, not_mem_nil, or_false] at member
    rcases member with rfl | rfl
    · intro level leaves root produced
      cases produced
    · exact sampleLeaves_fit small

/-- Every index has committed the heights 0 to 3. -/
def sampleIndexed : Indexed where
  heights _ := [0, 1, 2, 3]
  ascending _ := by decide
  bounded _ := by decide

def sampleStore : StoreReader where
  keyOrders name :=
    if name = headersName ∨ name = subtreesName then some .walkOrdered
    else if name = Watermark.name ∨ name = FormatVersion.metaName then some .metadata
    else none
  specs := [⟨headersName, .walkOrdered⟩, ⟨subtreesName, .walkOrdered⟩]
  headers := ⟨7, fun _ => true⟩

/-- The store holds the heights 0 to 3 and its stamp claims 5. -/
def sampleTrees (second : Nat) : Trees := fun name =>
  if name = headersName then sampleHeaders.contents [0, 1, 2, 3]
  else if name = subtreesName then (sampleSubtrees second).contents [0, 1, 2, 3]
  else if name = Watermark.name then (∅ : Tree).insert key [5, 0, 0, 0]
  else if name = FormatVersion.metaName then
    (∅ : Tree).insert headersName.asStr [7, 0, 0, 0, 0, 0, 0, 0]
  else ∅

theorem sample_built (second : Nat) (small : second ≤ 2 ^ 16) :
    Built sampleStore (sampleSet second small) sampleIndexed (sampleTrees second) where
  specs := rfl
  declares := by
    refine ⟨?_, by decide +kernel⟩
    intro index member
    simp only [sampleSet, mem_cons, not_mem_nil, or_false] at member
    rcases member with rfl | rfl
    · exact if_pos (Or.inl rfl)
    · exact if_pos (Or.inr rfl)
  contents := by
    intro index member
    simp only [sampleSet, mem_cons, not_mem_nil, or_false] at member
    have apart : subtreesName ≠ headersName := by decide +kernel
    rcases member with rfl | rfl
    · exact if_pos rfl
    · exact (if_neg apart).trans (if_pos rfl)

def sampleRepaired (second : Nat) : Trees :=
  (sampleStore.repairWatermark.run (sampleTrees second)).2

def height5 : Height := sampleHeight 5

def height3 : Height := sampleHeight 3

theorem sample_returns : sampleStore.repairWatermark.Returns (sampleTrees 0)
      (some ⟨height5, height3, []⟩) (sampleRepaired 0) :=
  Prod.ext (by decide +kernel) rfl

/-- With a single completed subtree the repair of the sample store is exact. -/
theorem repairWatermark_exact_sample :
    TrimsExactly sampleStore (sampleSet 0 (Nat.zero_le _)) sampleIndexed (sampleTrees 0)
      (sampleRepaired 0) height3 := by
  apply (repairWatermark_exact_iff (sample_built 0 (Nat.zero_le _)) sample_returns).mpr
  intro claimed corrected stamped point
  have claimed_five : claimed = height5 := by
    have read : Watermark.read (sampleTrees 0) = some height5 := by decide +kernel
    rw [read] at stamped
    exact (Option.some.inj stamped).symm
  have corrected_three : corrected = 3 := by
    have reported := (StoreReader.repairWatermark_returns sample_returns).2.1
    rw [claimed_five] at point
    exact point.unique reported
  subst corrected_three
  intro index member level leaves root produced height listed number completed
  simp only [sampleSet, mem_cons, not_mem_nil, or_false] at member
  rcases member with rfl | rfl
  · cases produced
  · cases produced
    have every : ∀ height ∈ [0, 1, 2, 3], ∀ number ∈ completedSubtrees
        (treeSize (sampleLeaves 0) height) (sampleLeaves 0 height) (2 ^ 16),
        (height ≤ 3 ↔ number = 0) := by decide +kernel
    exact every height listed number completed

/-- When block 2 completes a second subtree, the repair that corrects a claim of 5 to 3 deletes its
root, although block 2 is below the corrected height. -/
theorem repairWatermark_loses_root :
    Built sampleStore (sampleSet (2 ^ 16) (Nat.le_refl _)) sampleIndexed (sampleTrees (2 ^ 16)) ∧
    sampleStore.repairWatermark.Returns (sampleTrees (2 ^ 16))
      (some ⟨height5, height3, [(subtreesName, 1)]⟩) (sampleRepaired (2 ^ 16)) ∧
    (subtreeKey 1, [1, 2]) ∈ (sampleSubtrees (2 ^ 16)).entries 2 ∧
    (sampleTrees (2 ^ 16) subtreesName)[subtreeKey 1]? = some [1, 2] ∧
    (sampleRepaired (2 ^ 16) subtreesName)[subtreeKey 1]? = none ∧
    ¬ TrimsExactly sampleStore (sampleSet (2 ^ 16) (Nat.le_refl _)) sampleIndexed
      (sampleTrees (2 ^ 16)) (sampleRepaired (2 ^ 16)) height3 := by
  have produced : (subtreeKey 1, [1, 2]) ∈ (sampleSubtrees (2 ^ 16)).entries 2 := by decide +kernel
  have held : (sampleTrees (2 ^ 16) subtreesName)[subtreeKey 1]? = some [1, 2] := by decide +kernel
  have lost : (sampleRepaired (2 ^ 16) subtreesName)[subtreeKey 1]? = none := by decide +kernel
  refine ⟨sample_built _ _, Prod.ext (by decide +kernel) rfl, produced, held, lost, ?_⟩
  intro trims
  have kept := (trims.kept (sampleSubtrees (2 ^ 16)) (by simp [sampleSet]) rfl (subtreeKey 1)
    [1, 2]).mpr ⟨held, 2, by decide, produced⟩
  rw [show (sampleSubtrees (2 ^ 16)).name = subtreesName from rfl, lost] at kept
  cases kept

end Zaino.Store
