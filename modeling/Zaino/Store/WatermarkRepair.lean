import Zaino.Indexes.Production
import Zaino.Library.Fallible
import Zaino.Library.Listing
import Zaino.Lmdb.Transaction

/-!
# Correcting a watermark that claims more than the index holds

`repairWatermark` looks for the highest header at or below the stamped height, then for the lowest
hole in a window below that header, and stamps the top of the unbroken run. Before it lowers the
stamp it deletes, from every walk-ordered namespace, the keys from the first stale height on, in
chunks. Reads and commits are those of the store outside bulk mode; a backend that cannot be read
or written makes the repair fail and is left out here.
-/

namespace Zaino.Store

open Library Persistence Lmdb Indexes Fallible Nat Function Watermark Fallible OrderedMap Or

/-- How far below a bad watermark the repair looks for a header before giving up. -/
def maxSearch : Nat := 2 ^ 20

/-- How far below the top header the repair checks for holes. -/
def window : Nat := 2 ^ 14

/-- Entries deleted per trim commit. -/
def trimChunk : Nat := 10000

/-- The namespace of the headers index. -/
def headersName : Namespace := ⟨"headers".toUTF8.toList⟩

/-- The headers index's codec: the version it writes under, and the values it can decode. -/
structure HeaderCodec where
  formatVersion : UInt64
  decodes : RawValue → Bool

/-- What the repair is given: the declared namespaces, the index set's specifications and the
headers codec. -/
structure StoreReader where
  keyOrders : KeyOrders
  specs : List NamespaceSpec
  headers : HeaderCodec

/-- A watermark the headers index did not bear out, and where it now points. -/
structure WatermarkRepair where
  claimed : Height
  corrected : Height
  trimmed : List (Namespace × Nat)
  deriving DecidableEq

inductive WatermarkRepairError where
  /-- A header probe found bytes that do not decode. -/
  | probe
  | commit (source : CommitError)
  | trimCommit (name : Namespace) (source : CommitError)
  /-- No header at the watermark or within the search below it. -/
  | noHeaderBelow (claimed : Height) (searched : Nat)
  deriving DecidableEq

abbrev RepairM : Type → Type := Fallible Trees WatermarkRepairError

namespace StoreReader

/-- Whether the headers index holds a header at a height. A stale index reads as absent. -/
def headerHeld (store : StoreReader) (trees : Trees) (height : Height) :
    Except WatermarkRepairError Bool :=
  match FormatVersion.freshness trees headersName store.headers.formatVersion with
  | .stale => .ok false
  | .fresh =>
    match (trees headersName)[heightKey height.value]? with
    | none => .ok false
    | some bytes => if store.headers.decodes bytes then .ok true else .error .probe

/-- Commit a batch; a refused one leaves the store as it was. -/
def commit (store : StoreReader) (failed : CommitError → WatermarkRepairError)
    (ops : List WriteOp) : RepairM Unit := fun trees =>
  match commitDirect store.keyOrders trees ops with
  | .ok committed => (.ok (), committed)
  | .error e => (.error (failed e), trees)

/-- The highest header at or below the claim and the number of heights probed above it. The height
probed is `top`; there is nothing below genesis. -/
def highestHeader (held : Height → Except WatermarkRepairError Bool) (claimed : Height) :
    (top : Nat) → top ≤ maxHeight → (searched : Nat) → Except WatermarkRepairError (Height × Nat)
  | 0, bounded, searched => do
    if ← held ⟨0, bounded⟩ then pure (⟨0, bounded⟩, searched)
    else .error (.noHeaderBelow claimed (searched + 1))
  | top + 1, bounded, searched => do
    if ← held ⟨top + 1, bounded⟩ then pure (⟨top + 1, bounded⟩, searched)
    else if searched + 1 ≤ maxSearch then
      highestHeader held claimed top (le_of_succ_le bounded) (searched + 1)
    else .error (.noHeaderBelow claimed (searched + 1))

/-- What one probe of the window makes of the corrected height: a hole lowers it to the height
beneath the hole. -/
def lowered (claimed : Height) (searched : Nat) (below corrected : Height) :
    Bool → Except WatermarkRepairError Height
  | true => .ok corrected
  | false =>
    match below.checkedSub 1 with
    | some beneath => .ok beneath
    | none => .error (.noHeaderBelow claimed searched)

/-- Probe the window below the top header, from the top down; the lowest hole decides. -/
def unbrokenTop (held : Height → Except WatermarkRepairError Bool) (claimed : Height)
    (searched : Nat) : Nat → (probe corrected : Height) → Except WatermarkRepairError Height
  | 0, _, corrected => .ok corrected
  | steps + 1, probe, corrected =>
    match probe.checkedSub 1 with
    | none => .ok corrected
    | some below => do
      let corrected ← lowered claimed searched below corrected (← held below)
      unbrokenTop held claimed searched steps below corrected

/-- Delete the entries of a namespace in `[lower, upper)` in chunks and count them. Every pass
deletes at least one entry, so as many passes as there are entries, and one more that finds none,
are enough. -/
def trimNamespaceAbove (store : StoreReader) (name : Namespace) (lower upper : RawKey) :
    (passes removed : Nat) → RepairM Nat
  | 0, removed => pure removed
  | passes + 1, removed => do
    let reader ← get
    let keys := (((reader name).scanRange lower upper).take trimChunk).map Prod.fst
    if keys = [] then pure removed
    else
      store.commit (.trimCommit name) (keys.map fun key => .delete name key)
      trimNamespaceAbove store name lower upper passes (removed + keys.length)

/-- The first key that is trimmed: the first stale height. -/
def trimLower (corrected : Height) : RawKey := bigEndian 8 (corrected.value + 1)

/-- The bound of the trim. -/
def trimUpper : RawKey := List.replicate 8 0xff

/-- Trim the walk-ordered namespaces among `specs`, adding to what was trimmed before. -/
def trimSpecs (store : StoreReader) (lower upper : RawKey) :
    List NamespaceSpec → List (Namespace × Nat) → RepairM (List (Namespace × Nat))
  | [], trimmed => pure trimmed
  | spec :: specs, trimmed =>
    if spec.keyOrder ≠ .walkOrdered then
      trimSpecs store lower upper specs trimmed
    else do
      let reader ← get
      let removed ← store.trimNamespaceAbove spec.name lower upper
        (((reader spec.name).scanRange lower upper).length + 1) 0
      trimSpecs store lower upper specs
        (if removed > 0 then trimmed ++ [(spec.name, removed)] else trimmed)

/-- Delete every walk-ordered entry above `corrected`. -/
def trimWalkOrderedAbove (store : StoreReader) (corrected : Height) :
    RepairM (List (Namespace × Nat)) :=
  store.trimSpecs (trimLower corrected) trimUpper store.specs []

/-- Check the watermark against the headers index and re-stamp it if it claims more. -/
def repairWatermark (store : StoreReader) : RepairM (Option WatermarkRepair) := do
  let reader ← get
  match read reader with
  | none => pure none
  | some claimed =>
    let found ← ofExcept
      (highestHeader (store.headerHeld reader) claimed claimed.value claimed.bounded 0)
    let corrected ← ofExcept
      (unbrokenTop (store.headerHeld reader) claimed found.2 window found.1 found.1)
    if corrected = claimed then pure none
    else
      let trimmed ← store.trimWalkOrderedAbove corrected
      store.commit .commit [stamp corrected]
      pure (some ⟨claimed, corrected, trimmed⟩)

/-! ## Where the stamp is put -/

/-- The headers index was written under the running version and has an entry at the height. -/
def HoldsHeader (store : StoreReader) (trees : Trees) (height : Nat) : Prop :=
  FormatVersion.freshness trees headersName store.headers.formatVersion = .fresh ∧
    heightKey height ∈ trees headersName

variable {store : StoreReader} {trees trees' : Trees} {height claimed corrected : Height}
  {searched : Nat} {lower upper : RawKey}

theorem holdsHeader_of_held
    (held : store.headerHeld trees height = .ok true) : HoldsHeader store trees height.value := by
  unfold headerHeld at held
  split at held
  · cases held
  · next fresh =>
    split at held
    · cases held
    · next bytes present =>
      refine ⟨fresh, ?_⟩
      rw [Std.ExtTreeMap.mem_iff_isSome_getElem?, present]
      rfl

theorem not_holdsHeader_of_not_held (held : store.headerHeld trees height = .ok false) :
    ¬ HoldsHeader store trees height.value := by
  rintro ⟨fresh, present⟩
  rw [Std.ExtTreeMap.mem_iff_isSome_getElem?] at present
  unfold headerHeld at held
  rw [fresh] at held
  dsimp only at held
  split at held
  · next absent =>
    rw [absent] at present
    cases present
  · split at held <;> cases held

/-- The highest height at or below the claim that holds a header. -/
def TopHeader (holds : Nat → Prop) (claimed top : Nat) : Prop :=
  top ≤ claimed ∧ holds top ∧ ∀ height, top < height → height ≤ claimed → ¬ holds height

/-- The top of the unbroken run: the height beneath the lowest hole of the window below `top`, or
`top` itself when the window has no hole. -/
def UnbrokenTop (holds : Nat → Prop) (width top corrected : Nat) : Prop :=
  (corrected = top ∧ ∀ height < top, top ≤ height + width → holds height) ∨
    (corrected + 1 < top ∧ top ≤ corrected + 1 + width ∧ ¬ holds (corrected + 1) ∧
      ∀ height < corrected + 1, top ≤ height + width → holds height)

/-- Where a stamp of `claimed` belongs, given the headers that are held. -/
def RepairPoint (holds : Nat → Prop) (claimed corrected : Nat) : Prop :=
  ∃ top, TopHeader holds claimed top ∧ UnbrokenTop holds window top corrected

theorem RepairPoint.unique {holds : Nat → Prop} {claimed a b : Nat}
    (first : RepairPoint holds claimed a) (second : RepairPoint holds claimed b) : a = b := by
  obtain ⟨top, ⟨top_le, top_held, above_top⟩, run⟩ := first
  obtain ⟨top', ⟨top_le', top_held', above_top'⟩, run'⟩ := second
  have same : top = top' := by
    rcases lt_trichotomy top top' with below | equal | above
    · exact absurd top_held' (above_top top' below top_le')
    · exact equal
    · exact absurd top_held (above_top' top above top_le)
  subst same
  rcases run with ⟨rfl, whole⟩ | ⟨below, within, hole, lowest⟩
  · rcases run' with ⟨rfl, _⟩ | ⟨below', within', hole', _⟩
    · rfl
    · exact absurd (whole (b + 1) below' within') hole'
  · rcases run' with ⟨rfl, whole'⟩ | ⟨below', within', hole', lowest'⟩
    · exact absurd (whole' (a + 1) below within) hole
    · rcases lt_trichotomy a b with less | equal | more
      · exact absurd (lowest' (a + 1) (by omega) within) hole
      · exact equal
      · exact absurd (lowest (b + 1) (by omega) within') hole'

section Probes

variable {held : Height → Except WatermarkRepairError Bool}

/-- The search stops at the highest header at or below where it starts. -/
theorem highestHeader_ok {found : Height} {probed start : Nat} (bounded : start ≤ maxHeight)
    (returned : highestHeader held claimed start bounded searched = .ok (found, probed)) :
    found.value ≤ start ∧ held found = .ok true ∧
      ∀ height : Height, found.value < height.value → height.value ≤ start →
        held height = .ok false := by
  induction start generalizing searched with
  | zero =>
    obtain ⟨present, probe, returned⟩ := bind_eq_ok.mp returned
    cases present with
    | false => cases returned
    | true =>
      cases returned
      exact ⟨le_refl _, probe, fun height above le => absurd above (not_lt.mpr le)⟩
  | succ start ih =>
    obtain ⟨present, probe, returned⟩ := bind_eq_ok.mp returned
    cases present with
    | true =>
      cases returned
      exact ⟨le_refl _, probe, fun height above le => absurd above (not_lt.mpr le)⟩
    | false =>
      change (if searched + 1 ≤ maxSearch then _ else _) = _ at returned
      split at returned
      · obtain ⟨le, is_held, above⟩ := ih _ returned
        refine ⟨le_succ_of_le le, is_held, fun height higher within => ?_⟩
        rcases lt_or_ge start height.value with last | earlier
        · rwa [show height = ⟨start + 1, bounded⟩ from Height.ext (le_antisymm within last)]
        · exact above height higher earlier
      · cases returned

/-- The window's probes find the top of the unbroken run. -/
theorem unbrokenTop_ok {probe result : Height} {steps : Nat}
    (returned : unbrokenTop held claimed searched steps probe corrected = .ok result) :
    (result = corrected ∧ ∀ height : Height, height.value < probe.value →
      probe.value ≤ height.value + steps → held height = .ok true) ∨
    (∃ hole : Height, hole.value = result.value + 1 ∧ hole.value < probe.value ∧
      probe.value ≤ hole.value + steps ∧ held hole = .ok false ∧
      ∀ height : Height, height.value < hole.value → probe.value ≤ height.value + steps →
        held height = .ok true) := by
  induction steps generalizing probe corrected with
  | zero =>
    cases returned
    exact inl ⟨rfl, fun height below within => by omega⟩
  | succ steps ih =>
    rw [unbrokenTop] at returned
    split at returned
    · next genesis =>
      cases returned
      refine inl ⟨rfl, fun height below _ => ?_⟩
      have : probe.checkedSub 1 = some ⟨probe.value - 1, le_trans (sub_le _ _)
          probe.bounded⟩ := Height.checkedSub_eq_some.mpr (by dsimp only; omega)
      rw [this] at genesis
      cases genesis
    · next below is_below =>
      have step : below.value + 1 = probe.value := Height.checkedSub_eq_some.mp is_below
      obtain ⟨present, probed, returned⟩ := bind_eq_ok.mp returned
      cases present with
      | true =>
        rcases ih returned with ⟨rfl, whole⟩ | ⟨hole, is_hole, lower, within, missing, lowest⟩
        · refine inl ⟨rfl, fun height under within => ?_⟩
          rcases lt_or_ge height.value below.value with deeper | last
          · exact whole height deeper (by omega)
          · rwa [show height = below from Height.ext (by omega)]
        · exact inr ⟨hole, is_hole, by omega, by omega, missing,
            fun height under within => lowest height under (by omega)⟩
      | false =>
        cases beneath_below : below.checkedSub 1 with
        | none =>
          simp only [lowered, beneath_below, bind, Except.bind] at returned
          cases returned
        | some beneath =>
          simp only [lowered, beneath_below, bind, Except.bind] at returned
          have step' : beneath.value + 1 = below.value := Height.checkedSub_eq_some.mp beneath_below
          rcases ih returned with ⟨rfl, whole⟩ | ⟨hole, is_hole, lower, within, missing, lowest⟩
          · exact inr ⟨below, step'.symm, by omega, by omega, probed,
              fun height under within => whole height under (by omega)⟩
          · exact inr ⟨hole, is_hole, by omega, by omega, missing,
              fun height under within => lowest height under (by omega)⟩

end Probes

/-! ## What the trim leaves -/

theorem commit_returns {failed : CommitError → WatermarkRepairError} {ops : List WriteOp}
    {done : Unit} (returned : (store.commit failed ops).Returns trees done trees') :
    trees' = trees.applyAll ops := by
  simp only [Fallible.Returns, run, commit] at returned
  cases outcome : commitDirect store.keyOrders trees ops with
  | error e =>
    rw [outcome] at returned
    cases returned
  | ok committed =>
    rw [outcome] at returned
    cases returned
    exact commitDirect_ok outcome

/-- With passes enough, the chunks together delete the whole range of one namespace. -/
theorem trimNamespaceAbove_returns {name : Namespace} {passes removed count : Nat}
    (enough : ((trees name).scanRange lower upper).length < passes)
    (returned : (store.trimNamespaceAbove name lower upper passes removed).Returns trees count
      trees') : trees' = update trees name ((trees name).trimRange lower upper) := by
  induction passes generalizing trees removed with
  | zero => omega
  | succ passes ih =>
    obtain ⟨reader, middle, read, rest⟩ := returns_bind.mp returned
    obtain ⟨rfl, rfl⟩ := returns_get.mp read
    dsimp only at rest
    generalize range : (trees name).scanRange lower upper = found at rest enough
    split at rest
    · next none_left =>
      obtain ⟨-, rfl⟩ := returns_pure.mp rest
      have empty : found = [] := by
        rw [List.map_eq_nil_iff, List.take_eq_nil_iff] at none_left
        exact none_left.resolve_left (by decide)
      rw [trimRange_of_scanRange_nil (range.trans empty), update_eq_self]
    · next some_left =>
      obtain ⟨_, deleted, committed, again⟩ := returns_bind.mp rest
      rw [commit_returns committed, Trees.applyAll_deletes, ← range] at again
      have fewer : ((update trees name ((trees name).editAll (Edit.deletes
          ((((trees name).scanRange lower upper).take trimChunk).map Prod.fst))) name).scanRange
            lower upper).length < passes := by
        rw [update_self, scanRange_deletes_take, range, List.length_drop]
        have positive : 0 < found.length := by
          apply List.length_pos_of_ne_nil
          rintro rfl
          exact some_left rfl
        have chunk : 0 < trimChunk := by decide
        omega
      rw [ih fewer again, update_self, update_idem,
        trimRange_deletes_take]

/-- The trees without the range in each walk-ordered namespace of `specs`. -/
def trimmedTrees (specs : List NamespaceSpec) (lower upper : RawKey) (trees : Trees) : Trees :=
  fun name =>
    if ⟨name, .walkOrdered⟩ ∈ specs then (trees name).trimRange lower upper else trees name

/-- Every walk-ordered namespace of the specifications loses the range and no other changes. -/
theorem trimSpecs_returns {specs : List NamespaceSpec} {before trimmed : List (Namespace × Nat)}
    (returned : (store.trimSpecs lower upper specs before).Returns trees trimmed trees') :
    trees' = trimmedTrees specs lower upper trees := by
  induction specs generalizing before trees with
  | nil =>
    obtain ⟨-, rfl⟩ := returns_pure.mp returned
    funext name
    simp [trimmedTrees]
  | cons spec specs ih =>
    rw [trimSpecs] at returned
    split at returned
    · next not_walk =>
      rw [ih returned]
      funext name
      have other : (⟨name, .walkOrdered⟩ : NamespaceSpec) ≠ spec := by
        rintro rfl
        exact not_walk rfl
      simp [trimmedTrees, other]
    · next walk =>
      have is_walk : spec.keyOrder = .walkOrdered := Decidable.not_not.mp walk
      obtain ⟨reader, middle, read, rest⟩ := returns_bind.mp returned
      obtain ⟨rfl, rfl⟩ := returns_get.mp read
      obtain ⟨removed, after, trim, others⟩ := returns_bind.mp rest
      rw [ih others, trimNamespaceAbove_returns (lt_succ_self _) trim]
      funext name
      by_cases same : name = spec.name
      · subst same
        have listed : (⟨spec.name, .walkOrdered⟩ : NamespaceSpec) = spec := by rw [← is_walk]
        simp only [trimmedTrees, listed, List.mem_cons_self, if_true, update_self]
        split
        · exact trimRange_idem _ _ _
        · rfl
      · have other : (⟨name, .walkOrdered⟩ : NamespaceSpec) ≠ spec := by
          rintro rfl
          exact same rfl
        simp [trimmedTrees, update_of_ne same, other]

/-- What a repair that returns has done: nothing where there is no stamp; otherwise it has found the
highest header and the top of the unbroken run below it, and left a stamp that is there already or
trimmed the walk-ordered namespaces and moved it. -/
theorem repairWatermark_cases {outcome : Option WatermarkRepair}
    (returned : store.repairWatermark.Returns trees outcome trees') :
    (read trees = none ∧ outcome = none ∧ trees' = trees) ∨
      ∃ claimed top searched corrected, read trees = some claimed ∧
        highestHeader (store.headerHeld trees) claimed claimed.value claimed.bounded 0 =
          .ok (top, searched) ∧
        unbrokenTop (store.headerHeld trees) claimed searched window top top = .ok corrected ∧
        ((corrected = claimed ∧ outcome = none ∧ trees' = trees) ∨
          ∃ trimmed, corrected ≠ claimed ∧ outcome = some ⟨claimed, corrected, trimmed⟩ ∧
            trees' = (trimmedTrees store.specs (trimLower corrected) trimUpper trees).apply
              (stamp corrected)) := by
  obtain ⟨reader, middle, read, rest⟩ := returns_bind.mp returned
  obtain ⟨rfl, rfl⟩ := returns_get.mp read
  split at rest
  · next unstamped =>
    obtain ⟨rfl, rfl⟩ := returns_pure.mp rest
    exact inl ⟨unstamped, rfl, rfl⟩
  · next claimed stamped =>
    obtain ⟨⟨top, searched⟩, _, top_found, rest⟩ := returns_bind.mp rest
    obtain ⟨search, rfl⟩ := returns_ofExcept.mp top_found
    obtain ⟨corrected, _, run_found, rest⟩ := returns_bind.mp rest
    obtain ⟨run, rfl⟩ := returns_ofExcept.mp run_found
    refine inr ⟨claimed, top, searched, corrected, stamped, search, run, ?_⟩
    split at rest
    · next consistent =>
      obtain ⟨rfl, rfl⟩ := returns_pure.mp rest
      exact inl ⟨consistent, rfl, rfl⟩
    · next ahead =>
      obtain ⟨trimmed, _, trim, rest⟩ := returns_bind.mp rest
      obtain ⟨_, _, stamp, rest⟩ := returns_bind.mp rest
      obtain ⟨rfl, rfl⟩ := returns_pure.mp rest
      refine inr ⟨trimmed, ahead, rfl, ?_⟩
      rw [commit_returns stamp, trimSpecs_returns trim]
      rfl

/-- The two searches find the repair point of the claimed height. -/
theorem repairPoint_of_searches {top : Height}
    (search : highestHeader (store.headerHeld trees) claimed claimed.value claimed.bounded 0 =
      .ok (top, searched))
    (run : unbrokenTop (store.headerHeld trees) claimed searched window top top = .ok corrected) :
    TopHeader (HoldsHeader store trees) claimed.value top.value ∧
      UnbrokenTop (HoldsHeader store trees) window top.value corrected.value := by
  obtain ⟨top_le, top_held, above⟩ := highestHeader_ok claimed.bounded search
  refine ⟨⟨top_le, holdsHeader_of_held top_held, fun height higher le => ?_⟩, ?_⟩
  · exact not_holdsHeader_of_not_held (above ⟨height, le_trans le claimed.bounded⟩ higher le)
  · have bounded : ∀ height < top.value, height ≤ maxHeight := fun height below =>
      le_trans (le_of_lt below) top.bounded
    rcases unbrokenTop_ok run with ⟨rfl, whole⟩ | ⟨hole, is_hole, lower, within, missing, lowest⟩
    · exact inl ⟨rfl, fun height below within =>
        holdsHeader_of_held (whole ⟨height, bounded height below⟩ below within)⟩
    · have not_held := not_holdsHeader_of_not_held missing
      rw [is_hole] at lower within not_held lowest
      exact inr ⟨lower, within, not_held, fun height below within =>
        holdsHeader_of_held (lowest ⟨height, bounded height (by omega)⟩ below within)⟩

/-- A repair that reports a correction has stamped the repair point of the claimed height and
deleted the trim range from every walk-ordered namespace. -/
theorem repairWatermark_returns {repair : WatermarkRepair}
    (returned : store.repairWatermark.Returns trees (some repair) trees') :
    read trees = some repair.claimed ∧
      RepairPoint (HoldsHeader store trees) repair.claimed.value repair.corrected.value ∧
      trees' = (trimmedTrees store.specs (trimLower repair.corrected) trimUpper trees).apply
        (stamp repair.corrected) := by
  rcases repairWatermark_cases returned with ⟨_, impossible, _⟩ |
    ⟨claimed, top, searched, corrected, stamped, search, run,
      ⟨_, impossible, _⟩ | ⟨trimmed, _, is_repair, rfl⟩⟩
  · cases impossible
  · cases impossible
  · cases is_repair
    exact ⟨stamped, ⟨top.value, repairPoint_of_searches search run⟩, rfl⟩

end StoreReader

end Zaino.Store
