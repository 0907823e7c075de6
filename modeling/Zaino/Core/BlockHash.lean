import Zaino.Consensus.CandidateBracket
import Zaino.Core.Capture

/-!
# Reading block hashes by a range of times

`blockHashes` drives the candidate search over the header reads of a view, scans the bracket it finds and
keeps the blocks whose own time is in the range. On a chain that keeps the time rules the bracket leaves out
no block in the range, so the answer is exactly the blocks in it (`blockHashes_exact`).
-/

namespace Zaino.Core

open Zaino Library ChainHead Consensus Transparent List CandidateSearch Height ChainViewSnapshot

/-- A failed read of a block. -/
inductive BlockReadError
  /-- The blocks of this height are not built yet. -/
  | notServiceable
  | transient (message : String)
  | fatal (message : String)
  deriving DecidableEq

/-- A block's hash and time. -/
structure HeaderSummary where
  hash : BlockHash
  time : BlockTime
  deriving DecidableEq

/-- A block that matched a range of times. -/
structure BlockHashAt where
  height : Height
  hash : BlockHash
  time : BlockTime
  deriving DecidableEq

inductive BlockHashReadError
  /-- A header at or below the pinned tip was missing. -/
  | missingHeader (height : Height)
  | tierRead (source : BlockReadError)
  deriving DecidableEq

/-- The tip that a view is pinned to, and its header reads. -/
structure HeaderView where
  pinnedTip : Option BlockRef
  header : Height → Except BlockReadError (Option HeaderSummary)

/-- The header projection of the view over both tiers, routed on the seam. -/
def ChainViewSnapshot.readRoutedHeader (view : ChainViewSnapshot)
    (fs : Height → Except BlockReadError (Option HeaderSummary)) (height : Height) :
    Except BlockReadError (Option HeaderSummary) :=
  match view.route height with
  | .finalised => fs height
  | .volatile =>
    .ok ((view.nfs.bestBlockByHeight height).map fun block =>
      ⟨block.reference.hash, block.block.header.time.toNat⟩)
  | .initialBuildGap => .error .notServiceable
  | .aboveTip => .ok none

/-- The reads of the composed view; the head is never empty, so its tip is the view's. -/
def ChainViewSnapshot.headerView (view : ChainViewSnapshot)
    (fs : Height → Except BlockReadError (Option HeaderSummary)) : HeaderView :=
  ⟨some ⟨view.nfs.bestTip.hash, view.nfs.bestTip.height⟩, view.readRoutedHeader fs⟩

/-- The heights from `start` to `stop`. -/
def heights (start stop : Height) : List Height :=
  (List.range' start.value (stop.value + 1 - start.value)).filterMap tryFrom

namespace HeaderView

variable (view : HeaderView)

/-- The blocks of the heights whose own time is in the range. -/
def scan (low high : BlockTime) : List Height → Except BlockHashReadError (List BlockHashAt)
  | [] => .ok []
  | height :: rest => do
    let found ← (view.header height).mapError .tierRead
    let summary ← okOr found (.missingHeader height)
    let hits ← scan low high rest
    .ok (if low ≤ summary.time ∧ summary.time < high then
      ⟨height, summary.hash, summary.time⟩ :: hits
    else hits)

/-- The time at a height, as the search asks for it. -/
def timeAt (height : Height) : Except BlockHashReadError (Option BlockTime) := do
  let found ← (view.header height).mapError .tierRead
  .ok (found.map HeaderSummary.time)

/-- The blocks with a time from `low` to below `high`, by ascending time and then hash. The bytes of a
hash, compared in their order, compare as the number they spell. -/
def blockHashes (fuel : Nat) (low high : BlockTime) :
    Option (Except BlockHashReadError (List BlockHashAt)) :=
  match view.pinnedTip.map BlockRef.height with
  | none => some (.ok [])
  | some tip => do
    let searched ← (new tip low high .mainnet).drive view.timeAt fuel []
    some do
      let (_, outcome) ← searched
      let bracket ← outcome.mapError fun missing => .missingHeader missing.height
      match bracket with
      | none => .ok []
      | some bracket =>
        let hits ← view.scan low high (heights bracket.start bracket.stop)
        .ok (sortByKey (fun hit => [hit.time, hit.hash.toNat]) hits)

end HeaderView

/-! ## A view that serves a chain -/

/-- The view is pinned to a block of the chain and serves the chain up to it. -/
structure HeaderView.Serves (view : HeaderView) (chain : List HeaderSummary) (tip : Height) : Prop where
  tip_eq : view.pinnedTip.map BlockRef.height = some tip
  inside : tip.value < chain.length
  header_eq : ∀ height ≤ tip, view.header height = .ok chain[height.value]?

theorem mem_heights {start stop height : Height} :
    height ∈ heights start stop ↔ start ≤ height ∧ height ≤ stop := by
  unfold heights
  rw [mem_filterMap, le_def, le_def]
  constructor
  · rintro ⟨value, member, converted⟩
    have value_eq := tryFrom_eq_some.mp converted
    rw [mem_range'_1] at member
    omega
  · intro between
    refine ⟨height.value, ?_, tryFrom_eq_some.mpr rfl⟩
    rw [mem_range'_1]
    omega

theorem nodup_heights (start stop : Height) : (heights start stop).Nodup := by
  refine List.Nodup.filterMap ?_ (nodup_range' ..)
  intro a b height from_a from_b
  have a_eq := tryFrom_eq_some.mp from_a
  have b_eq := tryFrom_eq_some.mp from_b
  exact a_eq.symm.trans b_eq

/-- The block at a height, when its time is in the range. -/
def hitAt (chain : List HeaderSummary) (low high : BlockTime) (height : Height) : Option BlockHashAt :=
  chain[height.value]?.bind fun summary =>
    if low ≤ summary.time ∧ summary.time < high then some ⟨height, summary.hash, summary.time⟩ else none

/-- A block of the chain, up to the tip, with its time in the range. -/
def InRange (chain : List HeaderSummary) (tip : Height) (low high : BlockTime) (hit : BlockHashAt) : Prop :=
  hit.height ≤ tip ∧ chain[hit.height.value]? = some ⟨hit.hash, hit.time⟩ ∧
    low ≤ hit.time ∧ hit.time < high

/-- By ascending time, then by hash. -/
def TimeThenHash (a b : BlockHashAt) : Prop :=
  a.time < b.time ∨ a.time = b.time ∧ a.hash.toNat ≤ b.hash.toNat

section Serves

variable {view : HeaderView} {chain : List HeaderSummary} {tip : Height} {low high : BlockTime}

theorem hitAt_eq_some {height : Height} {hit : BlockHashAt} :
    hitAt chain low high height = some hit ↔
      height = hit.height ∧ chain[hit.height.value]? = some ⟨hit.hash, hit.time⟩ ∧
        low ≤ hit.time ∧ hit.time < high := by
  unfold hitAt
  rw [Option.bind_eq_some_iff]
  constructor
  · rintro ⟨summary, there, kept⟩
    split at kept
    · next in_range =>
      cases kept
      exact ⟨rfl, there, in_range⟩
    · cases kept
  · rintro ⟨rfl, there, in_range⟩
    exact ⟨_, there, if_pos in_range⟩

theorem HeaderView.Serves.scan_eq (serves : view.Serves chain tip) {scanned : List Height}
    (at_most : ∀ height ∈ scanned, height ≤ tip) :
    view.scan low high scanned = .ok (scanned.filterMap (hitAt chain low high)) := by
  induction scanned with
  | nil => rfl
  | cons height rest ih =>
    obtain ⟨first_at_most, at_most⟩ := forall_mem_cons.mp at_most
    have inside : height.value < chain.length := Nat.lt_of_le_of_lt first_at_most serves.inside
    have there : chain[height.value]? = some chain[height.value] := getElem?_eq_getElem inside
    have read : view.header height = .ok (some chain[height.value]) := by
      rw [serves.header_eq height first_at_most, there]
    unfold HeaderView.scan
    rw [read, ih at_most]
    have hit_eq : hitAt chain low high height =
        if low ≤ chain[height.value].time ∧ chain[height.value].time < high then
          some ⟨height, chain[height.value].hash, chain[height.value].time⟩ else none := by
      rw [hitAt, there, Option.bind_some]
    rw [filterMap_cons, hit_eq]
    change Except.ok _ = _
    split
    · rfl
    · rfl

theorem HeaderView.Serves.timeAt_eq (serves : view.Serves chain tip) (height : Height)
    (at_most : height ≤ tip) :
    view.timeAt height = .ok (chain.map HeaderSummary.time)[height.value]? := by
  unfold HeaderView.timeAt
  rw [serves.header_eq height at_most, getElem?_map]
  rfl

theorem timeThenHash_of_key {a b : BlockHashAt}
    (le : [a.time, a.hash.toNat] ≤ [b.time, b.hash.toNat]) : TimeThenHash a b := by
  by_contra out_of_order
  apply not_lt_of_ge le
  rw [cons_lt_cons_iff, cons_lt_cons_iff]
  rcases Nat.lt_trichotomy a.time b.time with earlier | same | later
  · exact absurd (.inl earlier) out_of_order
  · have higher : b.hash.toNat < a.hash.toNat :=
      Nat.lt_of_not_le fun lower => out_of_order (.inr ⟨same, lower⟩)
    exact .inr ⟨same.symm, .inl higher⟩
  · exact .inl later

/-- On a chain that keeps the time rules from genesis on, the read gives exactly the blocks up to the pinned
tip with a time in the range. -/
theorem HeaderView.Serves.blockHashes_eq (serves : view.Serves chain tip)
    (rules : KeepsTimeRules .mainnet (chain.map HeaderSummary.time)) {fuel : Nat}
    (enough : driveFuel tip ≤ fuel) :
    ∃ hits, view.blockHashes fuel low high = some (.ok hits) ∧
      (∀ hit, hit ∈ hits ↔ InRange chain tip low high hit) ∧ hits.Nodup ∧
      hits.Pairwise TimeThenHash := by
  have inside : tip.value < (chain.map HeaderSummary.time).length := by
    rw [length_map]
    exact serves.inside
  obtain ⟨requested, bracket, driven, -, -, within, complete⟩ :=
    drive_complete rules inside serves.timeAt_eq enough
  have covered : ∀ hit, InRange chain tip low high hit →
      ∃ range, bracket = some range ∧ covers range hit.height = true := by
    rintro hit ⟨at_most, there, low_le, lt_high⟩
    exact complete hit.height at_most hit.time (by rw [getElem?_map, there]; rfl) low_le lt_high
  unfold HeaderView.blockHashes
  rw [serves.tip_eq]
  dsimp only
  rw [driven]
  cases bracket with
  | none =>
    refine ⟨[], rfl, ?_, nodup_nil, List.Pairwise.nil⟩
    intro hit
    constructor
    · intro member
      cases member
    · intro in_range
      obtain ⟨_, absent, _⟩ := covered hit in_range
      cases absent
  | some range =>
    obtain ⟨-, stop_le⟩ := within range rfl
    have at_most : ∀ height ∈ heights range.start range.stop, height ≤ tip := by
      intro height member
      exact Nat.le_trans (mem_heights.mp member).2 stop_le
    have scanned : view.scan low high (heights range.start range.stop) =
        .ok ((heights range.start range.stop).filterMap (hitAt chain low high)) :=
      serves.scan_eq at_most
    refine ⟨sortByKey (fun hit => [hit.time, hit.hash.toNat])
      ((heights range.start range.stop).filterMap (hitAt chain low high)), ?_, ?_, ?_, ?_⟩
    · change some (view.scan low high (heights range.start range.stop) >>= _) = _
      rw [scanned]
      rfl
    · intro hit
      rw [(sortByKey_perm _ _).mem_iff, mem_filterMap]
      constructor
      · rintro ⟨height, member, is_hit⟩
        obtain ⟨rfl, in_range⟩ := hitAt_eq_some.mp is_hit
        exact ⟨at_most _ member, in_range⟩
      · intro in_range
        obtain ⟨_, same, covers_it⟩ := covered hit in_range
        cases same
        refine ⟨hit.height, ?_, hitAt_eq_some.mpr ⟨rfl, in_range.2⟩⟩
        rw [mem_heights]
        exact covers_eq_true.mp covers_it
    · rw [(sortByKey_perm _ _).nodup_iff]
      refine (nodup_heights _ _).filterMap ?_
      intro height height' hit from_height from_height'
      exact (hitAt_eq_some.mp from_height).1.trans (hitAt_eq_some.mp from_height').1.symm
    · have sorted := pairwise_sortByKey (fun hit : BlockHashAt => [hit.time, hit.hash.toNat])
        ((heights range.start range.stop).filterMap (hitAt chain low high))
      exact sorted.imp fun le => timeThenHash_of_key le

end Serves

/-- A view over both tiers serves the chain that its tiers hold, when they leave no height between them. -/
theorem ChainViewSnapshot.headerView_serves {view : ChainViewSnapshot} {chain : List HeaderSummary}
    {fs : Height → Except BlockReadError (Option HeaderSummary)}
    (gapless : Gapless view.watermark view.nfs) (inside : view.nfs.bestTip.height.value < chain.length)
    (finalised : ∀ height stop, view.watermark = some stop → height ≤ stop →
      fs height = .ok chain[height.value]?)
    (volatile : ∀ height range, coverage view.nfs = some range → range.start ≤ height →
      height ≤ range.stop → ((view.nfs.bestBlockByHeight height).map fun block =>
        (⟨block.reference.hash, block.block.header.time.toNat⟩ : HeaderSummary)) = chain[height.value]?) :
    (view.headerView fs).Serves chain view.nfs.bestTip.height where
  tip_eq := rfl
  inside := inside
  header_eq height at_most := by
    have no_gap := route_of_gapless gapless height
    change view.readRoutedHeader fs height = _
    unfold readRoutedHeader
    unfold route at no_gap ⊢
    by_cases durable : (view.watermark.any fun watermark => decide (height ≤ watermark)) = true
    · rw [if_pos durable]
      cases watermark : view.watermark with
      | none =>
        rw [watermark] at durable
        cases durable
      | some stop =>
        rw [watermark] at durable
        exact finalised height stop watermark (of_decide_eq_true durable)
    · rw [if_neg durable] at no_gap ⊢
      cases covered : coverage view.nfs with
      | none => cases covered
      | some window =>
        have stop_eq : window.stop = view.nfs.bestTip.height := by
          cases covered
          rfl
        have within : ¬ window.stop < height := by
          rw [stop_eq]
          exact Nat.not_lt_of_le at_most
        rw [covered] at no_gap
        dsimp only at no_gap ⊢
        rw [if_neg within] at no_gap ⊢
        by_cases from_start : window.start ≤ height
        · rw [if_pos from_start]
          exact congrArg Except.ok (volatile height window covered from_start (stop_eq ▸ at_most))
        · rw [if_neg from_start] at no_gap
          exact absurd rfl no_gap

/-- The reads by a range of times are exact. The search ends on every chain that keeps the time rules, with
a bracket of every block in the range, after requests at or below the tip and no two alike; an absent answer
makes it fail; and the read of the block hashes gives exactly the blocks in the range. -/
theorem time_range_reads_exact :
    (∀ (drift : MaxBlockTimeDrift) (times : List BlockTime), KeepsTimeRules drift times →
      ∀ (tip : Height), tip.value < times.length → ∀ (low high : BlockTime) (fuel : Nat),
      CandidateSearch.driveFuel tip ≤ fuel → ∃ requested bracket,
        (CandidateSearch.new tip low high drift).drive
            (fun height => (.ok times[height.value]? : Except Empty _)) fuel [] =
          some (.ok (requested, .ok bracket)) ∧
        requested.Nodup ∧ (∀ height ∈ requested, height ≤ tip) ∧
        ∀ height ≤ tip, ∀ time, times[height.value]? = some time → low ≤ time → time < high →
          ∃ range, bracket = some range ∧ covers range height = true) ∧
    (∀ (drift : MaxBlockTimeDrift) (answers : Height → Option BlockTime) (tip : Height)
      (low high : BlockTime) (fuel : Nat), CandidateSearch.driveFuel tip ≤ fuel →
      ∃ requested outcome, (CandidateSearch.new tip low high drift).drive
            (fun height => (.ok (answers height) : Except Empty _)) fuel [] =
          some (.ok (requested, outcome)) ∧ requested.Nodup ∧ (∀ height ∈ requested, height ≤ tip) ∧
        ∀ height ∈ requested, answers height = none → outcome = .error ⟨height⟩) ∧
    (∀ (view : HeaderView) (chain : List HeaderSummary) (tip : Height), view.Serves chain tip →
      KeepsTimeRules .mainnet (chain.map HeaderSummary.time) → ∀ (low high : BlockTime) (fuel : Nat),
      CandidateSearch.driveFuel tip ≤ fuel →
      ∃ hits, view.blockHashes fuel low high = some (.ok hits) ∧
        (∀ hit, hit ∈ hits ↔ InRange chain tip low high hit) ∧ hits.Nodup ∧
        hits.Pairwise TimeThenHash) := by
  refine ⟨?_, ?_, ?_⟩
  · intro drift times rules tip inside low high fuel enough
    obtain ⟨requested, bracket, driven, nodup, at_most, -, complete⟩ :=
      CandidateSearch.drive_complete rules inside (fun _ _ => rfl) enough
    exact ⟨requested, bracket, driven, nodup, at_most, complete⟩
  · intro drift answers tip low high fuel enough
    obtain ⟨last, requested, outcome, driven, ends, asked, -⟩ :=
      CandidateSearch.drive_new low high (fun _ _ => rfl) enough
    exact ⟨requested, outcome, driven, asked.nodup, asked.at_most_tip,
      fun height member absent => asked.outcome_of_absent ends member absent⟩
  · intro view chain tip serves rules low high fuel enough
    exact serves.blockHashes_eq rules enough

/-- Four blocks, the last one earlier than the one before it. -/
def sampleHeaders : List HeaderSummary := [⟨40, 100⟩, ⟨41, 200⟩, ⟨42, 300⟩, ⟨43, 250⟩]

def sampleHeaderView : HeaderView :=
  ⟨some ⟨43, sampleHeight 3⟩, fun height => .ok sampleHeaders[height.value]?⟩

theorem sampleHeaders_rules : KeepsTimeRules .mainnet (sampleHeaders.map HeaderSummary.time) := by
  intro height time mtp is_time is_mtp
  have inside : height < 4 := (List.getElem?_eq_some_iff.mp is_time).1
  rcases (by omega : height = 0 ∨ height = 1 ∨ height = 2 ∨ height = 3) with rfl | rfl | rfl | rfl
  · cases is_mtp
  · have computed : medianTimePast ((sampleHeaders.map HeaderSummary.time).take 1) = some 100 := by
      decide +kernel
    rw [computed] at is_mtp
    cases is_time
    cases is_mtp
    decide
  · have computed : medianTimePast ((sampleHeaders.map HeaderSummary.time).take 2) = some 200 := by
      decide +kernel
    cases is_time
    cases is_mtp
    decide
  · have computed : medianTimePast ((sampleHeaders.map HeaderSummary.time).take 3) = some 200 := by
      decide +kernel
    rw [computed] at is_mtp
    cases is_time
    cases is_mtp
    decide

/-- The range from 220 on has the last two blocks, the later height first. -/
theorem time_range_reads_sample : sampleHeaderView.blockHashes 20 220 400 =
        some (.ok [⟨⟨3, by decide⟩, 43, 250⟩, ⟨⟨2, by decide⟩, 42, 300⟩]) ∧
      ∃ hits, sampleHeaderView.blockHashes 20 220 400 = some (.ok hits) ∧
        ∀ hit, hit ∈ hits ↔ InRange sampleHeaders ⟨3, by decide⟩ 220 400 hit := by
  have serves : sampleHeaderView.Serves sampleHeaders ⟨3, by decide⟩ :=
    ⟨rfl, by decide, fun _ _ => rfl⟩
  obtain ⟨hits, read, exact_hits, -⟩ := time_range_reads_exact.2.2 _ _ _ serves sampleHeaders_rules 220 400
    20 (by decide)
  exact ⟨by decide +kernel, hits, read, exact_hits⟩

end Zaino.Core
