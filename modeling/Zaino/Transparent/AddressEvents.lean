import Mathlib.Data.List.Dedup
import Zaino.Transparent.UnspentSet

/-!
# Composed balance changes and transactions

The composed reads split the asked range at the seam. Below it the store attributes every spend,
since it has the history. Above it the window is asked for the spends of some candidate outpoints:
what the store holds unspent, and what the window pays the address inside the asked range. An output
that the window pays above the seam but below the asked range is in neither, so its spend inside the
range is missed. `reported` says which spends are reported, and `events_exact_iff` when the reads are
exact and additive over adjacent ranges.
-/

namespace Zaino.Transparent

open Zaino Library ChainHead List TransparentReceive Chain Nat Height ChainView Or

/-! ## Splitting a range -/

theorem inRange_nonEmpty (range : HeightRange) (height : Height) :
    inRange (nonEmpty range) height = covers range height := by
  unfold nonEmpty
  split
  · rfl
  · next empty =>
    refine (decide_eq_false fun inside => empty ?_).symm
    exact Nat.le_trans inside.1 inside.2

/-- The lower half is the part of the range below the seam, the upper half the part from the seam
on. -/
theorem inRange_splitAtSeam (watermark : Option Height) (range : HeightRange) (height : Height) :
    inRange (splitAtSeam watermark range).1 height =
        (covers range height && decide (height.value < seamOf watermark)) ∧
      inRange (splitAtSeam watermark range).2 height =
        (covers range height && decide (seamOf watermark ≤ height.value)) := by
  unfold splitAtSeam
  cases watermark with
  | none => simp [inRange_nonEmpty, seamOf, inRange_none]
  | some watermark =>
    cases next : watermark.checkedAdd 1 with
    | none =>
      -- The watermark is the highest height there is.
      have below : height.value < seamOf (some watermark) :=
        lt_of_le_of_lt height.bounded (checkedAdd_eq_none.mp next)
      simp [next, inRange_nonEmpty, inRange_none, below, Nat.not_le_of_lt below]
    | some seam =>
      have is_seam := checkedAdd_eq_some.mp next
      simp only [next, inRange_nonEmpty]
      refine (Bool.eq_iff_iff.and Bool.eq_iff_iff).mpr ?_
      simp only [Bool.and_eq_true, decide_eq_true_eq, covers_eq_true, min_value,
        max_value]
      have is_split : seamOf (some watermark) = watermark.value + 1 := rfl
      have least : range.stop.value.min watermark.value = min range.stop.value watermark.value := rfl
      have greatest : range.start.value.max seam.value = max range.start.value seam.value := rfl
      omega

variable {range : HeightRange} {β : Type} {place : Height × UInt32 × TransactionId}

/-! ## What is reported -/

/-- The spends a composed read over a range reports: those in the range, except of outputs created
at or above the seam but below the range. -/
def reported (seam : Nat) (range : HeightRange)
    (pair : TransparentReceive × TransparentSpend) : Bool :=
  covers range pair.2.height && !(seam ≤ pair.1.height.value && pair.1.height < range.start)

/-- What a composed read over a range gathers: what is created there, and the reported spends. -/
def Chain.reportedIn {β : Type} (chain : Chain) (parser : AddressParser)
    (address : TransparentAddress) (seam : Nat) (range : HeightRange)
    (onReceive : TransparentReceive → β) (onSpend : TransparentReceive × TransparentSpend → β) :
    List β :=
  ((chain.paying parser address).filter fun receive => covers range receive.height).map onReceive ++
    ((chain.spentPairs parser address).filter (reported seam range)).map onSpend

/-- The spends a window reports at or above the seam: of outputs from below the seam, and of those
created in the range at or above it. -/
def reportedAbove (seam : Nat) (range : HeightRange)
    (pair : TransparentReceive × TransparentSpend) : Bool :=
  (covers range pair.2.height && seam ≤ pair.2.height.value) &&
    (decide (pair.1.height.value < seam) ||
      (covers range pair.1.height && seam ≤ pair.1.height.value))

/-- What a composed read gathers at or above the seam. -/
def Chain.gatheredAbove {β : Type} (chain : Chain) (parser : AddressParser)
    (address : TransparentAddress) (seam : Nat) (range : HeightRange)
    (onReceive : TransparentReceive → β) (onSpend : TransparentReceive × TransparentSpend → β) :
    List β :=
  ((chain.paying parser address).filter fun receive =>
      covers range receive.height && seam ≤ receive.height.value).map onReceive ++
    ((chain.spentPairs parser address).filter (reportedAbove seam range)).map onSpend

section

variable (chain : Chain) (parser : AddressParser) (address : TransparentAddress) (seam : Nat)
  (range : HeightRange) (onReceive : TransparentReceive → β)
  (onSpend : TransparentReceive × TransparentSpend → β)

/-- The two halves of a range together gather what is reported in it. -/
theorem Chain.halves_perm :
    (chain.gathered parser address (fun height => covers range height && height.value < seam)
        onReceive onSpend ++ chain.gatheredAbove parser address seam range onReceive onSpend).Perm
      (chain.reportedIn parser address seam range onReceive onSpend) := by
  have created : ((chain.paying parser address).filter (fun receive =>
        covers range receive.height && receive.height.value < seam) ++
      (chain.paying parser address).filter (fun receive =>
        covers range receive.height && seam ≤ receive.height.value)).Perm
      ((chain.paying parser address).filter fun receive => covers range receive.height) := by
    refine filter_append_filter_perm (fun receive _ both => ?_) fun receive _ => ?_
    · simp only [Bool.and_eq_true, decide_eq_true_eq] at both
      omega
    · rcases lt_or_ge receive.height.value seam with below | above
      · simp [below, Nat.not_le_of_lt below]
      · simp [above, Nat.not_lt_of_le above]
  have spent : ((chain.spentPairs parser address).filter (fun pair =>
        covers range pair.2.height && pair.2.height.value < seam) ++
      (chain.spentPairs parser address).filter (reportedAbove seam range)).Perm
      ((chain.spentPairs parser address).filter (reported seam range)) := by
    refine filter_append_filter_perm (fun pair _ both => ?_) fun pair member => ?_
    · simp only [reportedAbove, Bool.and_eq_true, decide_eq_true_eq] at both
      omega
    · have ordered := le_def.mp (spentPairs_ordered member)
      rw [Bool.eq_iff_iff]
      simp only [reported, reportedAbove, Bool.or_eq_true, Bool.and_eq_true, Bool.not_eq_true',
        Bool.and_eq_false_iff, decide_eq_true_eq, decide_eq_false_iff_not, covers_eq_true,
        lt_def]
      omega
  refine (append_interchange_perm _ _ _ _).trans ?_
  rw [← map_append, ← map_append]
  exact (created.map onReceive).append (spent.map onSpend)

variable {chain parser address seam range}

theorem Chain.height_of_mem_gathered {p : Height → Bool}
    (member : place ∈ chain.gathered parser address p TransparentReceive.place
      fun pair => pair.2.place) : p place.1 = true := by
  rcases mem_map_filter_append.mp member with ⟨_, _, selected, rfl⟩ | ⟨_, _, selected, rfl⟩
  · exact selected
  · exact selected

/-- What is gathered at or above the seam lies there and in the range. -/
theorem Chain.mem_gatheredAbove (member : place ∈ chain.gatheredAbove parser address seam range
      TransparentReceive.place fun pair => pair.2.place) :
    place ∈ chain.touched parser address range ∧ seam ≤ place.1.value := by
  rcases mem_map_filter_append.mp member with ⟨receive, pays, inside, rfl⟩ |
    ⟨pair, consumed, inside, rfl⟩
  · rw [Bool.and_eq_true, decide_eq_true_eq] at inside
    exact ⟨mem_map_filter_append.mpr (inl ⟨receive, pays, inside.1, rfl⟩), inside.2⟩
  · rw [reportedAbove, Bool.and_eq_true, Bool.and_eq_true, decide_eq_true_eq] at inside
    exact ⟨mem_map_filter_append.mpr (inr ⟨pair, consumed, inside.1.1, rfl⟩), inside.1.2⟩

variable (chain parser address)

/-- With no upper half, nothing is gathered there. -/
theorem Chain.gatheredAbove_eq_nil {watermark : Option Height}
    (empty : (splitAtSeam watermark range).2 = none) :
    chain.gatheredAbove parser address (seamOf watermark) range onReceive onSpend = [] := by
  have nowhere := fun height => (inRange_splitAtSeam watermark range height).2
  rw [empty] at nowhere
  have none_spent : (chain.spentPairs parser address).filter
      (reportedAbove (seamOf watermark) range) = [] := by
    refine filter_eq_nil_iff.mpr fun pair _ => ?_
    rw [reportedAbove, ← nowhere]
    exact Bool.false_ne_true
  unfold gatheredAbove
  rw [none_spent]
  simp only [← nowhere, inRange, filter_false]
  rfl

end

/-- What the window holds of the address in a range, with the spends there of what is held. -/
abbrev ChainView.upperPart (view : ChainView) (parser : AddressParser)
    (address : TransparentAddress) (above : HeightRange) (held : List Utxo) : WindowPart :=
  view.windowPart parser address (some above) (some above) held

namespace Composed

variable {view : ChainView} {chain : Chain} {floor tip : Height}
  (composed : Composed view chain floor tip) (parser : AddressParser)
  (address : TransparentAddress)

include composed

variable {budget : ReadBudget} {range above : HeightRange} {held : List Utxo}

/-- A read of the store's half of a range that gathers from the store's chain, followed by the read
of what the store holds. -/
theorem halves_return {α : Type} {read : HeightRange → AddressM (List α)}
    {answers : HeightRange → List α → Prop} (range : HeightRange)
    (reads : ∀ lower : HeightRange, ∀ limit remaining : Nat, ∃ items : List α,
      (read lower).Returns ⟨limit, remaining + (((chain.select fun height =>
        height.value < view.seam).paying parser address).filter fun receive =>
          0 ≤ receive.height.value ∧ receive.height.value ≤ lower.stop.value).length⟩ items
        ⟨limit, remaining⟩ ∧ answers lower items)
    (within : 2 * (chain.paying parser address).length ≤ budget.remaining) :
    ∃ (items : List α) (held : List Utxo) (budget₁ budget₂ : ReadBudget),
      (storeHalf (splitAtSeam view.finalised.watermark range).1 read).Returns budget items
        budget₁ ∧ ((splitAtSeam view.finalised.watermark range).1 = none ∧ items = [] ∨
        ∃ lower, (splitAtSeam view.finalised.watermark range).1 = some lower ∧
          answers lower items) ∧
      (view.finalised.unspentOutpoints parser address).Returns budget₁ held budget₂ ∧
      chain.Held parser address view.seam held := by
  cases half : (splitAtSeam view.finalised.watermark range).1 with
  | none =>
    rcases composed.held_returns parser address
      (show (chain.paying parser address).length ≤ budget.remaining by omega) with
      ⟨held, _, held_returned, _, perm⟩
    exact ⟨[], held, budget, _, rfl, inl ⟨rfl, rfl⟩, held_returned, perm⟩
  | some lower =>
    have charged := reads lower budget.limit
    generalize is_scanned : ((chain.select fun height => height.value <
      view.seam).paying parser address).filter _ = scanned at charged
    have fewer : scanned.length ≤ (chain.paying parser address).length := by
      rw [← is_scanned, select_paying]
      exact (length_filter_le _ _).trans (length_filter_le _ _)
    rcases charged (budget.remaining - scanned.length) with ⟨items, returned, answered⟩
    rw [Nat.sub_add_cancel (by omega)] at returned
    have left : (chain.paying parser address).length ≤
        (⟨budget.limit, budget.remaining - scanned.length⟩ : ReadBudget).remaining := by
      dsimp only
      omega
    rcases composed.held_returns parser address left with
      ⟨held, _, held_returned, _, perm⟩
    exact ⟨items, held, _, _, returned, inr ⟨lower, rfl, answered⟩, held_returned, perm⟩

/-- Above the seam, a range that either tier reaches lies inside the window. -/
theorem upper_inside (reaches : range.stop.value < max (tip.value + 1) view.seam) (height : Height)
    (covered : inRange (splitAtSeam view.finalised.watermark range).2 height = true) :
    floor ≤ height ∧ height ≤ tip := by
  rw [(inRange_splitAtSeam _ _ _).2, Bool.and_eq_true, decide_eq_true_eq] at covered
  have stops := (covers_eq_true.mp covered.1).2
  have meets := composed.meets
  simp only [seam, le_def] at reaches ⊢
  omega

section

variable {parser address} (perm : chain.Held parser address view.seam held)

include perm

omit composed in
/-- The value a spend of the window carries is that of the output it consumes. -/
theorem values_lookup {received : List TransparentReceive}
    (paid : ∀ receive ∈ received, receive ∈ chain.paying parser address)
    {receive : TransparentReceive} (pays : receive ∈ chain.paying parser address)
    (candidate : receive.outpoint ∈ held.map Utxo.outpoint ∨ receive ∈ received) :
    (values held received).lookup receive.outpoint = some receive.value := by
  -- Whoever lists an outpoint lists it for the one output that created it.
  have of_held : ∀ utxo ∈ held, utxo.outpoint = receive.outpoint →
      utxo.satoshis = receive.value := by
    intro utxo at_utxo names
    rcases mem_map.mp (perm.mem_iff.mp at_utxo) with ⟨other, at_other, rfl⟩
    have other_pays := mem_of_mem_filter at_other
    rw [← chain.output_eq (mem_paying.mp other_pays).1 (mem_paying.mp pays).1 names]
    rfl
  refine HashMap.lookup_insertAll_of_agree ?_ fun value listed => ?_
  · rcases candidate with of_store | of_window
    · rcases mem_map.mp of_store with ⟨utxo, at_utxo, names⟩
      refine mem_append_left _ (mem_map.mpr ⟨utxo, at_utxo, ?_⟩)
      rw [names, of_held utxo at_utxo names]
    · exact mem_append_right _ (mem_map.mpr ⟨receive, of_window, rfl⟩)
  · rcases mem_append.mp listed with of_store | of_window
    · rcases mem_map.mp of_store with ⟨utxo, at_utxo, is_pair⟩
      rw [Prod.mk.injEq] at is_pair
      rw [← is_pair.2, of_held utxo at_utxo is_pair.1]
    · rcases mem_map.mp of_window with ⟨other, at_other, is_pair⟩
      rw [Prod.mk.injEq] at is_pair
      rw [← is_pair.2, chain.output_eq (mem_paying.mp (paid other at_other)).1
        (mem_paying.mp pays).1 is_pair.1]

variable (half : (splitAtSeam view.finalised.watermark range).2 = some above)
  (reaches : range.stop ≤ tip)

include half reaches

omit perm in
/-- The upper half has the heights of the range at or above the seam, all of them in the window. -/
theorem upper_half : (∀ height, covers above height =
      (covers range height && decide (view.seam ≤ height.value))) ∧
    ∀ height, inRange (some above) height = true → floor ≤ height ∧ height ≤ tip := by
  have in_half := fun height => (inRange_splitAtSeam view.finalised.watermark range height).2
  have inside := composed.upper_inside (lt_of_lt_of_le (lt_succ_of_le reaches)
    (le_max_left _ _))
  rw [half] at in_half inside
  exact ⟨in_half, inside⟩

/-- What the window gathers at or above the seam: what it pays the address there, and the spends
there of what the store holds or the window pays there. -/
theorem windowPart_gathers : (view.upperPart parser address above held).receives =
      ((chain.paying parser address).filter fun receive => covers range receive.height &&
        view.seam ≤ receive.height.value) ∧ ∃ pairs : List (TransparentReceive × TransparentSpend),
      (view.upperPart parser address above held).spends = pairs.map Prod.snd ∧
      pairs.Perm ((chain.spentPairs parser address).filter (reportedAbove view.seam range)) := by
  rcases composed.upper_half half reaches with ⟨upper, inside⟩
  have received := composed.windowPart_receives parser address (some above) (some above) held inside
  have spends_iff := composed.mem_windowPart_spends parser address held inside inside
  simp only [inRange_some, upper] at received spends_iff
  refine ⟨received, exists_perm_of_perm_map ((perm_ext_iff_of_nodup ?_ ?_).mpr fun spend => ?_)⟩
  · have read := composed.windowed.spends_eq (held.map Utxo.outpoint ++
      ((view.upperPart parser address above held).receives.map
        outpoint)) above
    have distinct := (inputs_nodup
      (chain.select fun height => floor ≤ height ∧ height ≤ tip)).of_map.filter
        fun spend => decide (covers above spend.height = true ∧ spend.outpoint ∈
          held.map Utxo.outpoint ++ ((view.upperPart parser address above held).receives.map
            outpoint))
    rw [← read] at distinct
    exact distinct
  · refine ((chain.spentPairs_nodup parser address).filter _).map_on ?_
    intro first at_first second at_second same
    have first_pair := mem_spentPairs.mp (mem_of_mem_filter at_first)
    have second_pair := mem_spentPairs.mp (mem_of_mem_filter at_second)
    have names : first.1.outpoint = second.1.outpoint := by
      rw [← first_pair.2.2, ← second_pair.2.2, same]
    exact Prod.ext (chain.output_eq (mem_paying.mp first_pair.1).1
      (mem_paying.mp second_pair.1).1 names) same
  · refine (spends_iff spend).trans (Iff.trans ?_ mem_map.symm)
    constructor
    · rintro ⟨member, covered, of_store | ⟨receive, pays, inside, names⟩⟩
      · rcases mem_map.mp of_store with ⟨utxo, at_utxo, is_outpoint⟩
        rcases mem_map.mp (perm.mem_iff.mp at_utxo) with ⟨receive, at_receive, rfl⟩
        rcases mem_filter.mp at_receive with ⟨pays, holds⟩
        have below := (of_decide_eq_true holds).1
        refine ⟨(receive, spend), mem_filter.mpr
          ⟨mem_spentPairs.mpr ⟨pays, member, is_outpoint.symm⟩, ?_⟩, rfl⟩
        simp only [reportedAbove, covered, below, decide_true, Bool.true_or, Bool.and_self]
      · refine ⟨(receive, spend), mem_filter.mpr
          ⟨mem_spentPairs.mpr ⟨pays, member, names.symm⟩, ?_⟩, rfl⟩
        simp only [reportedAbove, covered, inside, Bool.or_true, Bool.and_self]
    · rintro ⟨pair, at_pair, rfl⟩
      rcases mem_filter.mp at_pair with ⟨spent, holds⟩
      rcases mem_spentPairs.mp spent with ⟨pays, member, names⟩
      rw [reportedAbove, Bool.and_eq_true, Bool.or_eq_true, decide_eq_true_eq] at holds
      refine ⟨member, holds.1, ?_⟩
      rcases holds.2 with below | inside
      -- The only spend is at or above the seam, so the store still holds the output.
      · refine inl ?_
        rw [names]
        refine (outpoint_mem_held_iff perm pays).mpr ⟨below, ?_⟩
        refine unspentBelow_eq_true.mpr fun other at_other other_names => ?_
        rw [chain.input_eq at_other member (other_names.trans names.symm)]
        exact of_decide_eq_true (Bool.and_eq_true_iff.mp holds.1).2
      · exact inr ⟨pair.1, pays, inside, names.symm⟩

/-- The window's spends, as balance changes. -/
theorem spentDeltas_eq {pairs : List (TransparentReceive × TransparentSpend)}
    (spent : (view.upperPart parser address above held).spends = pairs.map Prod.snd)
    (pairs_perm : pairs.Perm ((chain.spentPairs parser address).filter
      (reportedAbove view.seam range))) : (view.upperPart parser address above held).spends.mapM
        (spentDelta address (values held
          (view.upperPart parser address above held).receives)) =
      .ok (pairs.map (spentChange address)) := by
  have inside := (composed.upper_half half reaches).2
  have received := composed.windowPart_receives parser address (some above) (some above) held inside
  rw [spent, mapM_map]
  refine mapM_eq_ok fun pair member => ?_
  have at_pair := pairs_perm.mem_iff.mp member
  rcases mem_spentPairs.mp (mem_of_mem_filter at_pair) with ⟨pays, at_spend, names⟩
  have listed : pair.2 ∈ (view.upperPart parser address above held).spends := by
    rw [spent]
    exact mem_map_of_mem member
  have carried : (values held
      (view.upperPart parser address above held).receives).lookup pair.2.outpoint =
        some pair.1.value := by
    rw [names]
    refine values_lookup perm (fun receive at_receive => ?_) pays ?_
    · rw [received] at at_receive
      exact mem_of_mem_filter at_receive
    · rcases ((composed.mem_windowPart_spends parser address held inside inside
        pair.2).mp listed).2.2 with of_store | ⟨receive, receive_pays, covered, same⟩
      · exact inl (names ▸ of_store)
      · refine inr ?_
        rw [← chain.output_eq (mem_paying.mp receive_pays).1 (mem_paying.mp pays).1
          (same.trans names), received]
        exact mem_filter.mpr ⟨receive_pays, covered⟩
  change spentDelta address _ pair.2 = _
  unfold spentDelta
  rw [carried]
  dsimp only
  rw [signed_spent]
  rfl

/-- The window's transactions, without repetitions. -/
theorem windowPart_places : (view.upperPart parser address above held).places.Nodup ∧
    ∀ place, place ∈ (view.upperPart parser address above held).places ↔
      place ∈ chain.gatheredAbove parser address view.seam range TransparentReceive.place
        fun pair => pair.2.place := by
  rcases composed.windowPart_gathers perm half reaches with ⟨received, pairs, spent, pairs_perm⟩
  have listed : ((view.upperPart parser address above held).receives.map TransparentReceive.place ++
      (view.upperPart parser address above held).spends.map TransparentSpend.place).Perm
      (chain.gatheredAbove parser address view.seam range TransparentReceive.place
        fun pair => pair.2.place) := by
    rw [received, spent, map_map]
    exact (pairs_perm.map (TransparentSpend.place ∘ Prod.snd)).append_left _
  have same := (sortByKey_perm placeKey _).trans listed
  refine ⟨nodup_dedupAdjacent (pairwise_sortByKey _ _) ?_, fun place =>
    mem_dedupAdjacent.trans same.mem_iff⟩
  intro first at_first second at_second same_key
  rw [placeKey, placeKey, List.cons.injEq, List.cons.injEq] at same_key
  exact touched_faithful (mem_gatheredAbove (same.mem_iff.mp at_first)).1
    (mem_gatheredAbove (same.mem_iff.mp at_second)).1 (ext same_key.1)
    (UInt32.toNat_inj.mp same_key.2.1)

end

omit composed in
/-- The store's half of what is gathered, when the store's answer is gathered from its chain. -/
theorem storeHalf_gathered {β : Type} {items : List β} {onReceive : TransparentReceive → β}
    {onSpend : TransparentReceive × TransparentSpend → β}
    (answered : (splitAtSeam view.finalised.watermark range).1 = none ∧ items = [] ∨
      ∃ lower, (splitAtSeam view.finalised.watermark range).1 = some lower ∧
        items.Perm ((chain.select fun height =>
          height.value < view.seam).gathered parser address (covers lower) onReceive onSpend)) :
    items.Perm (chain.gathered parser address (fun height =>
      covers range height && height.value < view.seam) onReceive onSpend) := by
  rcases answered with ⟨empty, is_nil⟩ | ⟨lower, half, perm⟩
  · have nowhere := fun height => (inRange_splitAtSeam view.finalised.watermark range height).1
    rw [empty] at nowhere
    rw [is_nil]
    unfold gathered
    simp only [← nowhere, inRange, filter_false]
    exact List.Perm.nil
  · have narrow := fun height => (inRange_splitAtSeam view.finalised.watermark range height).1
    simp only [half, inRange_some] at narrow
    simp only [← narrow]
    refine perm.trans (chain.select_gathered parser address (fun height covered => ?_) _ _)
    rw [narrow, Bool.and_eq_true, decide_eq_true_eq] at covered
    exact covered.2

omit composed in
/-- The window's receives, as balance changes. -/
theorem receivedDeltas_eq (received : List TransparentReceive) :
    received.mapM (receivedDelta address) =
      .ok (received.map (change address)) := by
  refine mapM_eq_ok fun receive _ => ?_
  rw [receivedDelta, signed_received]
  rfl

/-- What the composed read of balance changes returns. -/
theorem deltas_returns (reaches : range.stop ≤ tip)
    (within : 2 * (chain.paying parser address).length ≤ budget.remaining) :
    ∃ (changes : List AddressDelta) (budget' : ReadBudget),
      (view.deltas parser address range).Returns budget changes budget' ∧
      changes.Perm (chain.reportedIn parser address view.seam range
        (change address) (spentChange address)) := by
  rcases composed.halves_return parser address range
    (composed.stored.deltas_returns parser address) within with
    ⟨stored, held, budget₁, budget₂, stored_returned, answered, held_returned, perm⟩
  have lower := storeHalf_gathered parser address answered
  have whole := chain.halves_perm parser address view.seam range
    (change address) (spentChange address)
  cases half : (splitAtSeam view.finalised.watermark range).2 with
  | none =>
    rw [chain.gatheredAbove_eq_nil parser address _ _ half, append_nil] at whole
    refine ⟨stored, budget₁, ?_, lower.trans whole⟩
    refine stored_returned.bind ?_
    simp only [half]
    rfl
  | some above =>
    rcases composed.windowPart_gathers perm half reaches with
      ⟨received, pairs, spent, pairs_perm⟩
    have received_ok := receivedDeltas_eq address
      (view.upperPart parser address above held).receives
    have spent_ok := composed.spentDeltas_eq perm half reaches spent pairs_perm
    refine ⟨stored ++ (view.upperPart parser address above held).receives.map
      (change address) ++ pairs.map (spentChange address), budget₂, ?_, ?_⟩
    · refine stored_returned.bind ?_
      simp only [half]
      refine held_returned.bind ?_
      refine .bind (.ofExcept received_ok) ?_
      exact .bind (.ofExcept spent_ok) rfl
    · rw [received, append_assoc]
      exact (lower.append ((List.Perm.refl _).append (pairs_perm.map _))).trans whole

/-- What the composed read of transactions returns. -/
theorem txIds_returns (reaches : range.stop ≤ tip)
    (within : 2 * (chain.paying parser address).length ≤ budget.remaining) :
    ∃ (txids : List LocatedTxid) (budget' : ReadBudget),
      (view.txIds parser address range).Returns budget txids budget' ∧ txids.Nodup ∧
      ∀ located, located ∈ txids ↔ located ∈ (chain.reportedIn parser address
        view.seam range TransparentReceive.place
        fun pair => pair.2.place).map locatedTxid := by
  rcases composed.halves_return parser address range
    (composed.stored.txIds_returns parser address) within with
    ⟨stored, held, budget₁, budget₂, stored_returned, answered, held_returned, perm⟩
  -- The store lists each of its transactions in the range once.
  have lower : stored.Nodup ∧ ∀ located, located ∈ stored ↔
      located ∈ (chain.gathered parser address (fun height => covers range height &&
        height.value < view.seam) TransparentReceive.place
        fun pair => pair.2.place).map locatedTxid := by
    rcases answered with ⟨empty, is_nil⟩ | ⟨lower, half, distinct, members⟩
    · rw [is_nil, ← map_nil (f := locatedTxid)]
      refine ⟨nodup_nil, fun located => List.Perm.mem_iff (List.Perm.map locatedTxid ?_)⟩
      exact storeHalf_gathered parser address (inl ⟨empty, rfl⟩)
    · refine ⟨distinct, fun located => (members located).trans
        (List.Perm.mem_iff (List.Perm.map locatedTxid ?_))⟩
      exact storeHalf_gathered parser address (inr ⟨lower, half, List.Perm.refl _⟩)
  have whole := (chain.halves_perm parser address view.seam range
    TransparentReceive.place fun pair => pair.2.place).map locatedTxid
  rw [map_append] at whole
  cases half : (splitAtSeam view.finalised.watermark range).2 with
  | none =>
    rw [chain.gatheredAbove_eq_nil parser address _ _ half, map_nil, append_nil] at whole
    refine ⟨stored, budget₁, ?_, lower.1, fun located => (lower.2 located).trans whole.mem_iff⟩
    refine stored_returned.bind ?_
    simp only [half]
    rfl
  | some above =>
    rcases composed.windowPart_places perm half reaches with ⟨distinct, members⟩
    refine ⟨stored ++ (view.upperPart parser address above held).places.map
      locatedTxid, budget₂, ?_, ?_, fun located => ?_⟩
    · refine stored_returned.bind ?_
      simp only [half]
      exact held_returned.bind rfl
    · refine nodup_append'.mpr ⟨lower.1, distinct.map locatedTxid_injective, ?_⟩
      intro located of_store of_window
      rcases mem_map.mp ((lower.2 located).mp of_store) with ⟨place₁, at_place₁, is_place₁⟩
      rcases mem_map.mp of_window with ⟨place₂, at_place₂, is_place₂⟩
      have same := locatedTxid_injective (is_place₁.trans is_place₂.symm)
      have below := height_of_mem_gathered at_place₁
      have over_seam := (mem_gatheredAbove ((members place₂).mp at_place₂)).2
      rw [Bool.and_eq_true, decide_eq_true_eq, same] at below
      omega
    · rw [mem_append, lower.2 located, ← whole.mem_iff, mem_append]
      refine or_congr_right ?_
      simp only [mem_map, members]

end Composed

/-! ## When the reads are exact -/

/-- Reads over two adjacent ranges list together what the read over both lists. -/
def Additive {α : Type} (read : HeightRange → AddressM (List α)) (budget : ReadBudget)
    (range : HeightRange) : Prop :=
  ∀ middle next : Height, range.start ≤ middle → middle < range.stop →
    next.value = middle.value + 1 →
    ∃ whole lower upper : List α, ∃ budget₁ budget₂ budget₃ : ReadBudget,
      (read range).Returns budget whole budget₁ ∧
      (read ⟨range.start, middle⟩).Returns budget lower budget₂ ∧
      (read ⟨next, range.stop⟩).Returns budget upper budget₃ ∧
      whole.Perm (lower ++ upper)

variable {range : HeightRange}

/-- A read is additive if it is exact in every part of the range, and adjacent parts hold together what
the range holds. -/
theorem Additive.of_exact {α : Type} {read : HeightRange → AddressM (List α)} {budget : ReadBudget}
    (holds : HeightRange → List α)
    (reads : ∀ part : HeightRange, range.start ≤ part.start → part.stop ≤ range.stop →
      ∃ (items : List α) (budget' : ReadBudget), (read part).Returns budget items budget' ∧
        items.Perm (holds part))
    (adjacent : ∀ {middle next : Height}, range.start ≤ middle → middle < range.stop →
      next.value = middle.value + 1 →
      (holds ⟨range.start, middle⟩ ++ holds ⟨next, range.stop⟩).Perm (holds range)) :
    Additive read budget range := by
  intro middle next above below follows
  have later : range.start ≤ next := le_def.mpr (by
    have := le_def.mp above
    omega)
  rcases reads range (Nat.le_refl _) (Nat.le_refl _) with ⟨whole, _, whole_returned, whole_perm⟩
  rcases reads ⟨range.start, middle⟩ (Nat.le_refl _) (Nat.le_of_lt below) with
    ⟨lower, _, lower_returned, lower_perm⟩
  rcases reads ⟨next, range.stop⟩ later (Nat.le_refl _) with ⟨upper, _, upper_returned, upper_perm⟩
  refine ⟨whole, lower, upper, _, _, _, whole_returned, lower_returned, upper_returned, ?_⟩
  exact (whole_perm.trans (adjacent above below follows).symm).trans
    (lower_perm.append upper_perm).symm

/-- The composed reads of a range return exactly the address's events in it, and are additive over
adjacent ranges. -/
structure ExactEvents (view : ChainView) (chain : Chain) (parser : AddressParser)
    (address : TransparentAddress) (budget : ReadBudget) (range : HeightRange) : Prop where
  deltas : ∃ (changes : List AddressDelta) (budget' : ReadBudget),
    (view.deltas parser address range).Returns budget changes budget' ∧
    changes.Perm (chain.changes parser address range)
  txIds : ∃ (txids : List LocatedTxid) (budget' : ReadBudget),
    (view.txIds parser address range).Returns budget txids budget' ∧
    txids.Perm ((chain.touched parser address range).dedup.map locatedTxid)
  additive : Additive (view.deltas parser address) budget range ∧
    Additive (view.txIds parser address) budget range

/-- Nothing is missed in a range that has no spend of an output from above the seam but below the
range. -/
theorem Chain.reportedIn_eq_gathered {β : Type} {chain : Chain} {parser : AddressParser}
    {address : TransparentAddress} {seam : Nat}
    (none_missed : ∀ pair ∈ chain.spentPairs parser address,
      covers range pair.2.height = true → reported seam range pair = true)
    (onReceive : TransparentReceive → β) (onSpend : TransparentReceive × TransparentSpend → β) :
    chain.reportedIn parser address seam range onReceive onSpend =
      chain.gathered parser address (covers range) onReceive onSpend := by
  unfold reportedIn gathered
  congr 2
  refine filter_congr fun pair member => ?_
  rw [Bool.eq_iff_iff]
  exact ⟨fun is_reported => (Bool.and_eq_true_iff.mp is_reported).1, none_missed pair member⟩

variable (chain : Chain) (parser : AddressParser) (address : TransparentAddress)

include chain parser address

/-- Adjacent ranges gather together what the whole range gathers. -/
theorem Chain.gathered_adjacent {β : Type} {middle next : Height}
    (above : range.start ≤ middle) (below : middle < range.stop)
    (follows : next.value = middle.value + 1) (onReceive : TransparentReceive → β)
    (onSpend : TransparentReceive × TransparentSpend → β) :
    (chain.gathered parser address (covers ⟨range.start, middle⟩) onReceive onSpend ++
      chain.gathered parser address (covers ⟨next, range.stop⟩) onReceive onSpend).Perm
      (chain.gathered parser address (covers range) onReceive onSpend) := by
  have split : ∀ height : Height, covers range height =
      (covers ⟨range.start, middle⟩ height || covers ⟨next, range.stop⟩ height) := by
    intro height
    rw [Bool.eq_iff_iff, Bool.or_eq_true, covers_eq_true, covers_eq_true, covers_eq_true]
    have above' := le_def.mp above
    have below' := lt_def.mp below
    dsimp only
    omega
  have apart : ∀ height : Height, ¬ (covers ⟨range.start, middle⟩ height = true ∧
      covers ⟨next, range.stop⟩ height = true) := by
    intro height both
    rw [covers_eq_true, covers_eq_true] at both
    dsimp only at both
    omega
  refine (append_interchange_perm _ _ _ _).trans ?_
  rw [← map_append, ← map_append]
  exact (List.Perm.map onReceive (filter_append_filter_perm
      (fun receive _ => apart receive.height) fun receive _ => split receive.height)).append
    (List.Perm.map onSpend (filter_append_filter_perm
      (fun pair _ => apart pair.2.height) fun pair _ => split pair.2.height))

/-- What is reported is part of what there is; if it is all of it in number, nothing is missed. -/
theorem Chain.reportedIn_length {β : Type} (seam : Nat) (range : HeightRange)
    (onReceive : TransparentReceive → β) (onSpend : TransparentReceive × TransparentSpend → β) :
    (chain.reportedIn parser address seam range onReceive onSpend).length ≤
        (chain.gathered parser address (covers range) onReceive onSpend).length ∧
      ((chain.reportedIn parser address seam range onReceive onSpend).length =
          (chain.gathered parser address (covers range) onReceive onSpend).length →
        ∀ pair ∈ chain.spentPairs parser address,
          covers range pair.2.height = true → reported seam range pair = true) := by
  have part : ((chain.spentPairs parser address).filter (reported seam range)).Sublist
      ((chain.spentPairs parser address).filter fun pair => covers range pair.2.height) := by
    refine monotone_filter_right _ fun pair is_reported => ?_
    exact (Bool.and_eq_true_iff.mp is_reported).1
  unfold reportedIn gathered
  rw [length_append, length_append, length_map, length_map, length_map]
  refine ⟨Nat.add_le_add_left part.length_le _, fun same pair member covered => ?_⟩
  have all := part.eq_of_length (Nat.add_left_cancel same)
  have listed : pair ∈ (chain.spentPairs parser address).filter (reported seam range) := by
    rw [all]
    exact mem_filter.mpr ⟨member, covered⟩
  exact (mem_filter.mp listed).2

/-- A missed spend leaves fewer changes reported than there are. -/
theorem Chain.reportedIn_length_lt {seam : Nat}
    {pair : TransparentReceive × TransparentSpend} (member : pair ∈ chain.spentPairs parser address)
    (above_seam : seam ≤ pair.1.height.value) (before : pair.1.height < range.start)
    (covered : covers range pair.2.height = true) :
    (chain.reportedIn parser address seam range (change address)
      (spentChange address)).length < (chain.changes parser address range).length := by
  rcases chain.reportedIn_length parser address seam range (change address)
    (spentChange address) with ⟨at_most, all⟩
  refine lt_of_le_of_ne at_most fun same => ?_
  have is_reported := all same pair member covered
  simp [reported, covered, above_seam, before] at is_reported

omit chain parser address

section Exact

variable {view : ChainView} {chain : Chain} {floor tip : Height}
  (composed : Composed view chain floor tip) (parser : AddressParser)
  (address : TransparentAddress) {budget : ReadBudget}
  (within : 2 * (chain.paying parser address).length ≤ budget.remaining) (range : HeightRange)
  (reaches : range.stop ≤ tip)

include composed within reaches

theorem Composed.deltas_length {changes : List AddressDelta} {budget' : ReadBudget}
    (returned : (view.deltas parser address range).Returns budget changes budget') :
    changes.length = (chain.reportedIn parser address view.seam range
      (change address) (spentChange address)).length := by
  rcases composed.deltas_returns parser address reaches within with ⟨listed, _, ran, perm⟩
  rw [(returned.det ran).1]
  exact perm.length_eq

variable
  (none_missed : ∀ pair ∈ chain.spentPairs parser address, covers range pair.2.height = true → reported view.seam range pair = true)

include none_missed

theorem Composed.deltas_exact : ∃ (changes : List AddressDelta) (budget' : ReadBudget),
      (view.deltas parser address range).Returns budget changes budget' ∧
      changes.Perm (chain.changes parser address range) := by
  rcases composed.deltas_returns parser address reaches within with
    ⟨changes, budget', returned, perm⟩
  rw [reportedIn_eq_gathered none_missed] at perm
  exact ⟨changes, budget', returned, perm⟩

theorem Composed.txIds_exact : ∃ (txids : List LocatedTxid) (budget' : ReadBudget),
      (view.txIds parser address range).Returns budget txids budget' ∧
      txids.Perm ((chain.touched parser address range).dedup.map locatedTxid) := by
  rcases composed.txIds_returns parser address reaches within with
    ⟨txids, budget', returned, distinct, members⟩
  rw [reportedIn_eq_gathered none_missed] at members
  refine ⟨txids, budget', returned, (perm_ext_iff_of_nodup distinct
    ((nodup_dedup _).map locatedTxid_injective)).mpr fun located => ?_⟩
  rw [members]
  simp only [mem_map, mem_dedup]
  rfl

end Exact

/-- Adjacent ranges touch together the transactions the whole range touches, none of them twice. -/
theorem Chain.touched_adjacent (chain : Chain) (parser : AddressParser)
    (address : TransparentAddress) {middle next : Height}
    (above : range.start ≤ middle) (below : middle < range.stop)
    (follows : next.value = middle.value + 1) :
    ((chain.touched parser address ⟨range.start, middle⟩).dedup ++
      (chain.touched parser address ⟨next, range.stop⟩).dedup).Perm
      (chain.touched parser address range).dedup := by
  have whole := chain.gathered_adjacent parser address above below follows
    TransparentReceive.place fun pair => pair.2.place
  refine (perm_ext_iff_of_nodup ?_ (nodup_dedup _)).mpr fun place => ?_
  · refine nodup_append'.mpr ⟨nodup_dedup _, nodup_dedup _, ?_⟩
    intro place in_lower in_upper
    have lower := covers_eq_true.mp (height_of_mem_gathered (mem_dedup.mp in_lower))
    have upper := covers_eq_true.mp (height_of_mem_gathered (mem_dedup.mp in_upper))
    dsimp only at lower upper
    omega
  · rw [mem_append, mem_dedup, mem_dedup, mem_dedup, ← mem_append]
    exact whole.mem_iff

/-- No output of the address created at or above the seam is spent at a later height of the range. -/
def SpentAtOnce (chain : Chain) (parser : AddressParser) (address : TransparentAddress)
    (seam : Nat) (range : HeightRange) : Prop :=
  ∀ pair ∈ chain.spentPairs parser address, covers range pair.2.height = true →
    seam ≤ pair.1.height.value → pair.1.height = pair.2.height

/-- Then nothing is missed in the range, nor in a part of it. -/
theorem SpentAtOnce.none_missed {chain : Chain} {parser : AddressParser}
    {address : TransparentAddress} {seam : Nat} {range part : HeightRange}
    (at_once : SpentAtOnce chain parser address seam range) (starts : range.start ≤ part.start)
    (stops : part.stop ≤ range.stop) :
    ∀ pair ∈ chain.spentPairs parser address, covers part pair.2.height = true →
      reported seam part pair = true := by
  intro pair member covered
  rcases covers_eq_true.mp covered with ⟨from_start, to_stop⟩
  have inside : covers range pair.2.height = true :=
    covers_eq_true.mpr ⟨Nat.le_trans starts from_start, Nat.le_trans to_stop stops⟩
  simp only [reported, covered, Bool.true_and, Bool.not_eq_true', Bool.and_eq_false_iff,
    decide_eq_false_iff_not, lt_def]
  by_cases above_seam : seam ≤ pair.1.height.value
  · right
    rw [at_once pair member inside above_seam]
    omega
  · exact inl above_seam

section Exact

variable {view : ChainView} {chain : Chain} {floor tip : Height}
  (composed : Composed view chain floor tip) (parser : AddressParser)
  (address : TransparentAddress) {budget : ReadBudget}
  (within : 2 * (chain.paying parser address).length ≤ budget.remaining) {range : HeightRange}
  (reaches : range.stop ≤ tip)

include composed within reaches

theorem Composed.deltas_additive (at_once : SpentAtOnce chain parser address view.seam range) :
    Additive (view.deltas parser address) budget range := by
  refine .of_exact (chain.changes parser address) (fun part starts stops => ?_)
    fun above below follows => chain.gathered_adjacent parser address above below follows _ _
  exact composed.deltas_exact parser address within part (Nat.le_trans stops reaches)
    (at_once.none_missed starts stops)

theorem Composed.txIds_additive (at_once : SpentAtOnce chain parser address view.seam range) :
    Additive (view.txIds parser address) budget range := by
  refine .of_exact (fun range => (chain.touched parser address range).dedup.map locatedTxid)
    (fun part starts stops => ?_) fun above below follows => ?_
  · exact composed.txIds_exact parser address within part (Nat.le_trans stops reaches)
      (at_once.none_missed starts stops)
  · rw [← map_append]
    exact (chain.touched_adjacent parser address above below follows).map _

/-- Where the reads are exact and additive, no spend is missed: an output created above the seam and
spent later in the range would be missed by the read that starts right after its creation. -/
theorem Composed.spentAtOnce_of_exact
    (exact_events : ExactEvents view chain parser address budget range) :
    SpentAtOnce chain parser address view.seam range := by
  intro pair member covered above_seam
  by_contra differ
  have ordered := le_def.mp (spentPairs_ordered member)
  have later : pair.1.height.value < pair.2.height.value :=
    lt_of_le_of_ne ordered fun same => differ (ext same)
  rcases covers_eq_true.mp covered with ⟨starts, stops⟩
  rcases exact_events.deltas with ⟨changes, _, returned, perm⟩
  rcases lt_or_ge pair.1.height.value range.start.value with before | after
  · have length := composed.deltas_length parser address within range reaches returned
    have fewer := chain.reportedIn_length_lt parser address member above_seam before covered
    rw [← length, perm.length_eq] at fewer
    exact lt_irrefl _ fewer
  -- Split right after the creation: the upper read starts above it and misses the spend.
  · have starts_there : range.start ≤ pair.1.height := after
    have goes_on : pair.1.height < range.stop := lt_of_lt_of_le later stops
    rcases exists_succ (Nat.le_trans later pair.2.height.bounded) with ⟨next, follows⟩
    rcases exact_events.additive.1 pair.1.height next starts_there goes_on follows with
      ⟨whole, lower, upper, _, _, _, whole_ran, lower_ran, upper_ran, together⟩
    have lower_reaches : pair.1.height ≤ tip := Nat.le_trans (Nat.le_of_lt goes_on) reaches
    have lower_length := composed.deltas_length parser address within ⟨range.start, pair.1.height⟩
      lower_reaches lower_ran
    have upper_length := composed.deltas_length parser address within ⟨next, range.stop⟩ reaches
      upper_ran
    have at_most := (chain.reportedIn_length parser address view.seam
      ⟨range.start, pair.1.height⟩ (change address) (spentChange address)).1
    have before : pair.1.height < next := lt_def.mpr (by omega)
    have covered' : covers ⟨next, range.stop⟩ pair.2.height = true :=
      covers_eq_true.mpr ⟨by dsimp only; omega, stops⟩
    have fewer := chain.reportedIn_length_lt parser address member above_seam before covered'
    have adjacent := (chain.gathered_adjacent parser address starts_there goes_on follows
      (change address) (spentChange address)).length_eq
    have total := together.length_eq
    have whole_length := perm.length_eq
    rw [(returned.det whole_ran).1] at whole_length
    rw [length_append] at total adjacent
    unfold Chain.changes at fewer whole_length
    omega

end Exact

/-- The composed reads of a range are exact and additive exactly when no output of the address
created above the store's watermark is spent at a later height of the range. -/
theorem events_exact_iff {view : ChainView} {chain : Chain} {floor tip : Height}
    (composed : Composed view chain floor tip) (parser : AddressParser)
    (address : TransparentAddress) {budget : ReadBudget}
    (within : 2 * (chain.paying parser address).length ≤ budget.remaining)
    (reaches : range.stop ≤ tip) : ExactEvents view chain parser address budget range ↔
      SpentAtOnce chain parser address (seamOf view.finalised.watermark) range := by
  refine ⟨composed.spentAtOnce_of_exact parser address within reaches, fun at_once => ?_⟩
  have none_missed := at_once.none_missed (Nat.le_refl _) (Nat.le_refl _)
  exact
    { deltas := composed.deltas_exact parser address within range reaches none_missed
      txIds := composed.txIds_exact parser address within range reaches none_missed
      additive := ⟨composed.deltas_additive parser address within reaches at_once,
        composed.txIds_additive parser address within reaches at_once⟩ }

/-- A store that has indexed the payment, and the window over heights one and two. -/
def settledView : ChainView :=
  ⟨sampleStore spentChain (sampleHeight 1), sampleWindow samplePaid [sampleSpent]⟩

/-- The spend of an output the store holds is reported. -/
theorem events_exact_settled : Composed settledView spentChain ⟨1, by decide⟩ ⟨2, by decide⟩ ∧
    ExactEvents settledView spentChain sampleParser ⟨""⟩ ⟨10, 10⟩
      ⟨⟨2, by decide⟩, ⟨2, by decide⟩⟩ := by
  have composed : Composed settledView spentChain ⟨1, by decide⟩ ⟨2, by decide⟩ :=
    ⟨⟨rfl, fun _ => rfl, fun _ => rfl⟩, ⟨by decide, by decide⟩, by decide, by decide⟩
  refine ⟨composed, (events_exact_iff composed sampleParser ⟨""⟩ (by decide) (by decide)).mpr ?_⟩
  intro pair member _ above_seam
  have created : ∀ pair ∈ spentChain.spentPairs sampleParser ⟨""⟩, pair.1.height.value = 1 := by
    decide
  have height := created pair member
  have above : 2 ≤ pair.1.height.value := above_seam
  omega

/-- A store at genesis, and the window over heights one and two. -/
def volatileView : ChainView :=
  ⟨sampleStore spentChain .genesis, sampleWindow samplePaid [sampleSpent]⟩

/-- The spend at height two of an output the window paid at height one is missing from the balance
changes of height two. -/
theorem deltas_misses_spend : Composed volatileView spentChain ⟨1, by decide⟩ ⟨2, by decide⟩ ∧
    ((volatileView.deltas sampleParser ⟨""⟩ ⟨⟨2, by decide⟩, ⟨2, by decide⟩⟩).run ⟨10, 10⟩).1.toOption
      = some [] ∧ (spentChain.changes sampleParser ⟨""⟩ ⟨⟨2, by decide⟩, ⟨2, by decide⟩⟩).map
      (fun change => (change.satoshis.value, change.txid, change.height.value)) = [(-5, 2, 2)] :=
  ⟨⟨⟨rfl, fun _ => rfl, fun _ => rfl⟩, ⟨by decide, by decide⟩, by decide, by decide⟩,
    by decide +kernel, by decide +kernel⟩

end Zaino.Transparent
