import Mathlib.Algebra.Order.BigOperators.Group.List
import Mathlib.Algebra.Order.Group.Nat
import Zaino.Transparent.AddressEvents

/-!
# The composed balance

What an address received in a range of heights, and how much of that it still holds. The read sums
what the store and the window each received in their halves of the range. What is held it takes from
the store's unspent outputs and from the window's receives, less what any block of the window spends.

So an output counts as spent if either tier saw it spent, wherever the asked range ends:
`balance_exact` counts spends up to the higher of the watermark and the window's tip.
-/

namespace Zaino

open Nat

/-- The sum of two amounts, refused past the supply. It fits the machine word, so that only the
supply can refuse it. -/
def Zatoshis.checkedAdd (amount other : Zatoshis) : Option Zatoshis :=
  if bounded : amount.value + other.value ≤ maxZatoshis then some ⟨_, bounded⟩ else none

/-- The sum of amounts that coexist. -/
def Zatoshis.sumBalances (values : List Zatoshis) : Option Zatoshis :=
  values.foldlM Zatoshis.checkedAdd ⟨0, Nat.zero_le _⟩

/-- A total of amounts that moved, bounded by its machine word only. -/
@[ext]
structure ZatoshisFlowSum where
  value : Nat
  bounded : value < 2 ^ 128

instance : DecidableEq ZatoshisFlowSum := fun _ _ => decidable_of_iff _ ZatoshisFlowSum.ext_iff.symm

namespace ZatoshisFlowSum

/-- A total with one more amount, refused past the machine word. -/
def checkedAdd (sum : ZatoshisFlowSum) (amount : Zatoshis) : Option ZatoshisFlowSum :=
  if bounded : sum.value + amount.value < 2 ^ 128 then some ⟨_, bounded⟩ else none

/-- The total of some amounts. -/
def tryAccumulate (values : List Zatoshis) : Option ZatoshisFlowSum :=
  values.foldlM checkedAdd ⟨0, by decide⟩

/-- The total over two runs of blocks that do not meet. -/
def checkedJoin (sum other : ZatoshisFlowSum) : Option ZatoshisFlowSum :=
  if bounded : sum.value + other.value < 2 ^ 128 then some ⟨_, bounded⟩ else none

end ZatoshisFlowSum

end Zaino

namespace Zaino.Transparent

open Zaino Library ChainHead List

/-- What an address holds and what it received. -/
structure AddressBalance where
  balance : Zatoshis
  received : ZatoshisFlowSum
  deriving DecidableEq

/-- A sum, or a fatal error if it was refused. -/
def orFatal {α : Type} (sum : Option α) (message : String) : AddressM α :=
  match sum with
  | some sum => pure sum
  | none => Fallible.fail (.fatal message)

/-- The balance over the store's blocks. -/
def StoreSnapshot.balance (store : StoreSnapshot) (parser : AddressParser)
    (address : TransparentAddress) (range : HeightRange) : AddressM AddressBalance := do
  let entries ← store.entries parser address range.start.value range.stop.value
  let arrived := entries.filter fun entry => covers range entry.height
  let received ← orFatal (ZatoshisFlowSum.tryAccumulate (arrived.map Entry.value))
    "gross receipts overflowed"
  let balance ← orFatal
    (Zatoshis.sumBalances ((arrived.filter fun entry => entry.spent.isNone).map Entry.value))
    "balance exceeds the supply bound"
  pure ⟨balance, received⟩

/-- The balance of nothing. -/
def emptyBalance : AddressM AddressBalance := do
  let balance ← orFatal (Zatoshis.sumBalances []) "an empty sum overflowed"
  let received ← orFatal (ZatoshisFlowSum.tryAccumulate []) "an empty sum overflowed"
  pure ⟨balance, received⟩

namespace ChainView

variable (view : ChainView) (parser : AddressParser)

/-- The store's balance over its half of a range. -/
def storeBalance (address : TransparentAddress) : Option HeightRange → AddressM AddressBalance
  | some range => view.finalised.balance parser address range
  | none => emptyBalance

/-- The balance of an address over a range. -/
def balance (address : TransparentAddress) (range : HeightRange) : AddressM AddressBalance := do
  let halves := splitAtSeam view.finalised.watermark range
  let stored ← view.storeBalance parser address halves.1
  let held ← view.finalised.unspentOutpoints parser address
  let part := view.windowPart parser address halves.2 (coverage view.nonFinalised) held
  let windowReceived ← orFatal
    (ZatoshisFlowSum.tryAccumulate (part.receives.map TransparentReceive.value))
    "the window's gross receipts overflowed"
  let received ← orFatal (stored.received.checkedJoin windowReceived) "gross receipts overflowed"
  let fromStore := ((held.filter fun utxo => inRange halves.1 utxo.height).filter fun utxo =>
    !part.spent utxo.outpoint).map Utxo.satoshis
  let fromWindow := (part.receives.filter fun receive => !part.spent receive.outpoint).map
    TransparentReceive.value
  let balance ← orFatal (Zatoshis.sumBalances (fromStore ++ fromWindow))
    "balance exceeds the supply bound"
  pure ⟨balance, received⟩

end ChainView

/-! ## Sums -/

theorem sumBalances_eq {values : List Zatoshis}
    (fits : (values.map Zatoshis.value).sum ≤ maxZatoshis) :
    ∃ sum, Zatoshis.sumBalances values = some sum ∧
      sum.value = (values.map Zatoshis.value).sum := by
  rw [← Nat.zero_add (values.map Zatoshis.value).sum] at fits ⊢
  refine foldlM_checked Zatoshis.value (fun sum amount within => ?_) fits
  exact ⟨⟨_, within⟩, dif_pos within, rfl⟩

theorem tryAccumulate_eq {values : List Zatoshis}
    (fits : (values.map Zatoshis.value).sum < 2 ^ 128) :
    ∃ sum, ZatoshisFlowSum.tryAccumulate values = some sum ∧
      sum.value = (values.map Zatoshis.value).sum := by
  rw [← Nat.zero_add (values.map Zatoshis.value).sum] at fits ⊢
  refine foldlM_checked ZatoshisFlowSum.value (fun sum amount within => ?_) (Nat.le_pred_of_lt fits)
  have within' : sum.value + amount.value < 2 ^ 128 := Nat.lt_of_le_pred (by decide) within
  exact ⟨⟨_, within'⟩, dif_pos within', rfl⟩

theorem orFatal_returns {α : Type} {sum : Option α} {value : α} (is_some : sum = some value)
    (message : String) (budget : ReadBudget) :
    (orFatal sum message).Returns budget value budget := by
  rw [is_some]
  rfl

/-- What some outputs carry together. -/
def total (receives : List TransparentReceive) : Nat :=
  (receives.map fun receive => receive.value.value).sum

theorem total_perm {first second : List TransparentReceive} (perm : first.Perm second) :
    total first = total second :=
  (perm.map _).sum_eq

theorem total_append (first second : List TransparentReceive) :
    total (first ++ second) = total first + total second := by
  rw [total, map_append, sum_append]
  rfl

variable (receives : List TransparentReceive)

theorem total_filter_le (p : TransparentReceive → Bool) :
    total (receives.filter p) ≤ total receives :=
  (filter_sublist.map _).sum_le_sum fun _ _ => Nat.zero_le _

theorem total_filter_mono {receives : List TransparentReceive} {p q : TransparentReceive → Bool}
    (narrower : ∀ receive ∈ receives, p receive = true → q receive = true) :
    total (receives.filter p) ≤ total (receives.filter q) := by
  have selected : receives.filter p = (receives.filter q).filter p := by
    rw [filter_filter]
    refine filter_congr fun receive member => ?_
    exact (Bool.and_eq_left_iff_imp.mpr (narrower receive member)).symm
  rw [selected]
  exact total_filter_le _ p

/-- What some outputs carry is what the selected ones carry and what the others carry. -/
theorem total_filter_add (p q : TransparentReceive → Bool) :
    total (receives.filter p) = total (receives.filter fun receive => p receive && q receive) +
      total (receives.filter fun receive => p receive && !q receive) := by
  rw [← total_append]
  refine total_perm (filter_append_filter_perm ?_ ?_).symm
  · intro receive _ both
    rw [Bool.and_eq_true, Bool.and_eq_true, Bool.not_eq_true'] at both
    rw [both.1.2] at both
    exact nomatch both.2.2
  · intro receive _
    cases p receive <;> cases q receive <;> rfl

namespace Chain

variable {chain : Chain} {receive : TransparentReceive}

theorem unspentBelow_max (first second : Nat) : chain.unspentBelow (max first second) receive =
      (chain.unspentBelow first receive && chain.unspentBelow second receive) := by
  unfold unspentBelow
  cases chain.spendOf receive.outpoint with
  | none => rfl
  | some spend => rw [← Bool.decide_and, decide_eq_decide]; exact Nat.max_le

/-- Nothing is spent below the height that creates it. -/
theorem unspentBelow_of_created {bound : Nat} (created : receive ∈ chain.outputs)
    (above : bound ≤ receive.height.value) : chain.unspentBelow bound receive = true :=
  unspentBelow_eq_true.mpr fun _ member names =>
    le_trans above (chain.created_before_spent created member names)

/-- The outputs spent below a height. -/
theorem map_fst_spentPairs (parser : AddressParser) (address : TransparentAddress) (bound : Nat) :
    (((chain.spentPairs parser address).filter fun pair => pair.2.height.value < bound).map
      Prod.fst) =
      (chain.paying parser address).filter fun receive => !chain.unspentBelow bound receive := by
  rw [spentPairs, filter_filterMap, map_filterMap, ← filterMap_eq_filter]
  refine filterMap_congr fun receive _ => ?_
  cases spent : chain.spendOf receive.outpoint with
  | none => simp [unspentBelow, spent, Option.guard]
  | some spend =>
    by_cases early : spend.height.value < bound
    · simp [unspentBelow, spent, Option.filter_some, Option.guard, early]
    · simp [unspentBelow, spent, Option.filter_some, Option.guard, early, Nat.le_of_not_lt early]

end Chain

/-! ## The store's half -/

/-- The store's gross receipts are those of its blocks. -/
theorem StoreSnapshot.Serves.balance_returns {store : StoreSnapshot} {chain : Chain}
    (serves : store.Serves chain) (parser : AddressParser) (address : TransparentAddress)
    (range : HeightRange) (limit remaining : Nat)
    (flow : total ((chain.paying parser address).filter fun receive =>
      covers range receive.height) < 2 ^ 128)
    (supply : total ((chain.paying parser address).filter fun receive =>
      covers range receive.height && (chain.spendOf receive.outpoint).isNone) ≤ maxZatoshis) :
    ∃ result : AddressBalance, (store.balance parser address range).Returns
        ⟨limit, remaining + ((chain.paying parser address).filter fun receive =>
          covers range receive.height).length⟩ result ⟨limit, remaining⟩ ∧
      result.received.value = total ((chain.paying parser address).filter fun receive =>
        covers range receive.height) := by
  have bounded : range.stop.value + 1 < 2 ^ 64 :=
    Nat.lt_of_le_of_lt (Nat.succ_le_succ range.stop.bounded) (by decide)
  rcases serves.entries_returns parser address range.start.value range.stop.value limit remaining
    bounded with ⟨entries, returned, perm⟩
  have arrived : (entries.filter fun entry => covers range entry.height).Perm
      (((chain.paying parser address).filter fun receive => covers range receive.height).map
        chain.entryOf) := by
    refine (perm.filter _).trans (List.Perm.of_eq ?_)
    rw [filter_map, filter_filter]
    refine congrArg _ (filter_congr fun receive _ => ?_)
    exact Bool.and_self (covers range receive.height)
  have unspent : ((entries.filter fun entry => covers range entry.height).filter fun entry =>
      entry.spent.isNone).Perm
      (((chain.paying parser address).filter fun receive => covers range receive.height &&
        (chain.spendOf receive.outpoint).isNone).map chain.entryOf) := by
    refine (arrived.filter _).trans (List.Perm.of_eq ?_)
    rw [filter_map, filter_filter]
    refine congrArg _ (filter_congr fun receive _ => ?_)
    rw [Bool.and_comm]
    exact congrArg _ Option.isNone_map
  have summed : ∀ {entries : List Entry} {receives : List TransparentReceive},
      entries.Perm (receives.map chain.entryOf) →
        ((entries.map Entry.value).map Zatoshis.value).sum = total receives := by
    intro entries receives perm
    rw [map_map, (perm.map _).sum_eq, map_map]
    rfl
  rcases tryAccumulate_eq (Nat.lt_of_le_of_lt (le_of_eq (summed arrived)) flow) with
    ⟨received, accumulated, received_value⟩
  rcases sumBalances_eq (le_trans (le_of_eq (summed unspent)) supply) with
    ⟨balance, is_balance, _⟩
  refine ⟨⟨balance, received⟩, ?_, received_value.trans (summed arrived)⟩
  refine returned.bind ?_
  refine .bind (orFatal_returns accumulated _ _) ?_
  exact .bind (orFatal_returns is_balance _ _) rfl

namespace Composed

variable {view : ChainView} {chain : Chain} {floor tip : Height}
  (composed : Composed view chain floor tip) (parser : AddressParser)
  (address : TransparentAddress)

include composed

/-- The gross receipts of the store's half of a range. -/
theorem storeBalance_returns (range : HeightRange)
    (flow : total (chain.paying parser address) < 2 ^ 128)
    (supply : total (chain.utxosBelow parser address view.seam) ≤ maxZatoshis)
    {budget : ReadBudget} (within : (chain.paying parser address).length ≤ budget.remaining) :
    ∃ (stored : AddressBalance) (budget' : ReadBudget),
      (view.storeBalance parser address (splitAtSeam view.finalised.watermark range).1).Returns
        budget stored budget' ∧
      budget.remaining ≤ budget'.remaining + (chain.paying parser address).length ∧
      stored.received.value = total ((chain.paying parser address).filter fun receive =>
        covers range receive.height && decide (receive.height.value < view.seam)) := by
  have halves := fun height => (inRange_splitAtSeam view.finalised.watermark range height).1
  cases half : (splitAtSeam view.finalised.watermark range).1 with
  | none =>
    simp only [half] at halves
    refine ⟨⟨⟨0, Nat.zero_le _⟩, ⟨0, by decide⟩⟩, budget, ?_, Nat.le_add_right _ _, ?_⟩
    · refine .bind (orFatal_returns rfl _ _) ?_
      exact .bind (orFatal_returns rfl _ _) rfl
    · simp only [← halves]
      have nothing : ((chain.paying parser address).filter fun receive =>
          inRange none receive.height) = [] :=
        filter_eq_nil_iff.mpr fun _ _ => Bool.false_ne_true
      rw [nothing]
      rfl
  | some lower =>
    simp only [half, inRange_some] at halves
    have selected : (((chain.select fun height =>
        height.value < view.seam).paying parser address).filter
          fun receive => covers lower receive.height) =
        (chain.paying parser address).filter fun receive => covers lower receive.height := by
      rw [Chain.select_paying, filter_filter]
      refine filter_congr fun receive _ => Bool.and_eq_left_iff_imp.mpr fun covered => ?_
      rw [halves, Bool.and_eq_true] at covered
      exact covered.2
    have narrow := total_filter_le (chain.paying parser address) fun receive =>
      covers lower receive.height
    have fewer := length_filter_le (fun receive : TransparentReceive =>
      covers lower receive.height) (chain.paying parser address)
    have held : total (((chain.select fun height =>
        height.value < view.seam).paying parser address).filter fun receive =>
          covers lower receive.height && ((chain.select fun height =>
            height.value < view.seam).spendOf receive.outpoint).isNone) ≤
        maxZatoshis := by
      refine le_trans ?_ supply
      rw [Chain.select_paying, filter_filter]
      refine total_filter_mono fun receive _ selected => ?_
      rw [Bool.and_eq_true, Bool.and_eq_true, Chain.select_spendOf_isNone] at selected
      exact decide_eq_true ⟨of_decide_eq_true selected.2, selected.1.2⟩
    rcases composed.stored.balance_returns parser address lower budget.limit
      (budget.remaining - ((chain.paying parser address).filter fun receive =>
        covers lower receive.height).length) (by rw [selected]; omega) held with
      ⟨stored, returned, received⟩
    rw [selected, Nat.sub_add_cancel (by omega)] at returned
    rw [selected] at received
    refine ⟨stored, _, returned, ?_, ?_⟩
    · dsimp only
      omega
    · simp only [← halves]
      exact received

omit composed in
/-- What the store's unspent outputs add to the balance. -/
theorem fromStore_sum (range : HeightRange) {held : List Utxo}
    (perm : chain.Held parser address view.seam held)
    {part : WindowPart} (not_spent : ∀ receive ∈ chain.paying parser address,
      receive.height.value < view.seam ∧ chain.unspentBelow view.seam receive = true →
      (!part.spent receive.outpoint) = chain.unspentBelow (tip.value + 1) receive) :
    ((((held.filter fun utxo => inRange (splitAtSeam view.finalised.watermark range).1
        utxo.height).filter fun utxo => !part.spent utxo.outpoint).map Utxo.satoshis).map
          Zatoshis.value).sum = total ((chain.paying parser address).filter fun receive =>
        (covers range receive.height && chain.unspentBelow
          (max (tip.value + 1) view.seam) receive) &&
            decide (receive.height.value < view.seam)) := by
  have listed := (((perm.filter fun utxo => inRange (splitAtSeam view.finalised.watermark range).1
    utxo.height).filter fun utxo => !part.spent utxo.outpoint).map fun utxo =>
      utxo.satoshis.value).sum_eq
  rw [map_map]
  refine listed.trans ?_
  rw [Chain.utxosBelow, filter_map, filter_map, map_map, filter_filter,
    filter_filter, total]
  refine congrArg (fun receives : List TransparentReceive =>
    (receives.map fun receive => receive.value.value).sum) (filter_congr fun receive pays => ?_)
  have halves := (inRange_splitAtSeam view.finalised.watermark range receive.height).1
  have same := not_spent receive pays
  rw [Chain.unspentBelow_max]
  change (((!part.spent receive.outpoint) && inRange (splitAtSeam view.finalised.watermark range).1
    receive.height) && _) = _
  rw [halves]
  by_cases stored : receive.height.value < view.seam ∧
      chain.unspentBelow view.seam receive = true
  · rw [same stored]
    simp only [stored, decide_true, and_self, Bool.and_true]
    exact Bool.and_comm _ _
  · have unstored : ¬ (chain.unspentBelow view.seam receive = true ∧
        receive.height.value < view.seam) := fun both => stored both.symm
    rw [decide_eq_false stored, Bool.and_false]
    refine (Bool.eq_false_iff.mpr fun selected => unstored ?_).symm
    simp only [Bool.and_eq_true, decide_eq_true_eq] at selected
    exact ⟨selected.1.2.2, selected.2⟩

omit composed in
/-- What the window's receives add to the balance. -/
theorem fromWindow_sum {range : HeightRange} {part : WindowPart}
    (received : part.receives = (chain.paying parser address).filter fun receive =>
      inRange (splitAtSeam view.finalised.watermark range).2 receive.height)
    (not_spent : ∀ receive ∈ chain.paying parser address,
      inRange (splitAtSeam view.finalised.watermark range).2 receive.height = true →
      (!part.spent receive.outpoint) = chain.unspentBelow (tip.value + 1) receive) :
    (((part.receives.filter fun receive => !part.spent receive.outpoint).map
        TransparentReceive.value).map Zatoshis.value).sum =
      total ((chain.paying parser address).filter fun receive =>
        (covers range receive.height && chain.unspentBelow
          (max (tip.value + 1) view.seam) receive) &&
            !decide (receive.height.value < view.seam)) := by
  rw [map_map, received, filter_filter, total]
  refine congrArg (fun receives : List TransparentReceive =>
    (receives.map fun receive => receive.value.value).sum) (filter_congr fun receive pays => ?_)
  have halves := (inRange_splitAtSeam view.finalised.watermark range receive.height).2
  have same := not_spent receive pays
  rw [Chain.unspentBelow_max]
  rw [halves] at same ⊢
  by_cases above : view.seam ≤ receive.height.value
  · have kept := Chain.unspentBelow_of_created (Chain.mem_paying.mp pays).1 above
    cases covered : covers range receive.height with
    | false => simp
    | true =>
      rw [covered, decide_eq_true above] at same
      simp [same rfl, kept, above]
  · simp [above, Nat.lt_of_not_le above]

variable {range : HeightRange}
  (reaches : range.stop.value < max (tip.value + 1) view.seam)

include reaches

/-- The composed balance read returns what the address received in the range and how much of that no
block of either tier spends. -/
theorem balance_returns (supply : ∀ bound, total (chain.utxosBelow parser address bound) ≤ maxZatoshis)
    (flow : total (chain.paying parser address) < 2 ^ 128) {budget : ReadBudget}
    (within : 2 * (chain.paying parser address).length ≤ budget.remaining) :
    ∃ (result : AddressBalance) (budget' : ReadBudget),
      (view.balance parser address range).Returns budget result budget' ∧
      result.received.value = total ((chain.paying parser address).filter fun receive =>
        covers range receive.height) ∧
      result.balance.value = total ((chain.paying parser address).filter fun receive =>
        covers range receive.height && chain.unspentBelow
          (max (tip.value + 1) view.seam) receive) := by
  have inside := composed.upper_inside reaches
  rcases composed.storeBalance_returns parser address range flow (supply _)
    (show (chain.paying parser address).length ≤ budget.remaining by omega) with
    ⟨stored, budget₁, stored_returned, left, stored_received⟩
  rcases composed.held_returns parser address
    (show (chain.paying parser address).length ≤ budget₁.remaining by omega) with
    ⟨held, budget₂, held_returned, _, perm⟩
  have part_receives := composed.windowPart_receives parser address
    (splitAtSeam view.finalised.watermark range).2 (some ⟨floor, tip⟩) held inside
  have not_spent := composed.not_spent_eq perm inside
  generalize is_part : view.windowPart parser address
    (splitAtSeam view.finalised.watermark range).2 (some ⟨floor, tip⟩) held = part
    at part_receives not_spent
  -- Gross receipts: the store's below the seam, the window's from the seam on.
  have gross := total_filter_add (chain.paying parser address)
    (fun receive => covers range receive.height)
    (fun receive => decide (receive.height.value < view.seam))
  have gross_le := total_filter_le (chain.paying parser address) fun receive =>
    covers range receive.height
  have window_gross : ((part.receives.map TransparentReceive.value).map Zatoshis.value).sum =
      total ((chain.paying parser address).filter fun receive => covers range receive.height &&
        !decide (receive.height.value < view.seam)) := by
    rw [map_map, part_receives, total]
    refine congrArg (fun receives : List TransparentReceive =>
      (receives.map fun receive => receive.value.value).sum) (filter_congr fun receive _ => ?_)
    rw [(inRange_splitAtSeam _ _ _).2, ← decide_not]
    exact congrArg _ (decide_eq_decide.mpr not_lt.symm)
  rcases tryAccumulate_eq (show ((part.receives.map TransparentReceive.value).map
    Zatoshis.value).sum < 2 ^ 128 by omega) with ⟨windowReceived, accumulated, window_value⟩
  have joins : stored.received.value + windowReceived.value < 2 ^ 128 := by omega
  -- What is held: the same split of what neither tier spends.
  have store_held := fromStore_sum parser address range perm
    fun receive pays stored => not_spent receive pays (Or.inl stored)
  have window_held := fromWindow_sum parser address part_receives
    fun receive pays covered => not_spent receive pays (Or.inr covered)
  have net := total_filter_add (chain.paying parser address)
    (fun receive => covers range receive.height && chain.unspentBelow
      (max (tip.value + 1) view.seam) receive)
    (fun receive => decide (receive.height.value < view.seam))
  rw [← store_held, ← window_held, ← sum_append, ← map_append] at net
  have net_le : total ((chain.paying parser address).filter fun receive =>
      covers range receive.height && chain.unspentBelow
        (max (tip.value + 1) view.seam) receive) ≤ maxZatoshis := by
    refine le_trans (total_filter_mono fun receive _ selected => ?_)
      (supply (max (tip.value + 1) view.seam))
    rw [Bool.and_eq_true] at selected
    have stops := (covers_eq_true.mp selected.1).2
    exact decide_eq_true ⟨by omega, selected.2⟩
  rw [net] at net_le
  rcases sumBalances_eq net_le with ⟨balance, summed, balance_value⟩
  refine ⟨⟨balance, ⟨_, joins⟩⟩, budget₂, ?_, ?_, balance_value.trans net.symm⟩
  · refine stored_returned.bind ?_
    refine held_returned.bind ?_
    rw [composed.covered, is_part]
    refine .bind (orFatal_returns accumulated _ _) ?_
    refine .bind (orFatal_returns (dif_pos joins) _ _) ?_
    exact .bind (orFatal_returns summed _ _) rfl
  · dsimp only
    omega

end Composed

/-- Up to a height, what an address received is what it holds and what was spent of it. -/
theorem Chain.held_add_spent (chain : Chain) (parser : AddressParser)
    (address : TransparentAddress) {range : HeightRange} (whole : range.start.value = 0) :
    total ((chain.paying parser address).filter fun receive => covers range receive.height &&
        chain.unspentBelow (range.stop.value + 1) receive) +
      total (((chain.spentPairs parser address).filter fun pair =>
        pair.2.height ≤ range.stop).map Prod.fst) =
      total ((chain.paying parser address).filter fun receive => covers range receive.height) := by
  have spent : (((chain.spentPairs parser address).filter fun pair =>
      pair.2.height ≤ range.stop).map Prod.fst) =
      (chain.paying parser address).filter fun receive => covers range receive.height &&
        !chain.unspentBelow (range.stop.value + 1) receive := by
    have below := chain.map_fst_spentPairs parser address (range.stop.value + 1)
    simp only [Nat.lt_succ_iff] at below
    refine Eq.trans below (filter_congr fun receive pays => ?_)
    refine (Bool.and_eq_right_iff_imp.mpr fun spent => ?_).symm
    -- What is spent by then was created by then.
    by_contra outside
    rw [covers_eq_true, whole] at outside
    have late := Chain.unspentBelow_of_created (Chain.mem_paying.mp pays).1
      (show range.stop.value + 1 ≤ receive.height.value by omega)
    rw [late] at spent
    cases spent
  rw [spent]
  exact (total_filter_add _ _ _).symm

/-- The composed balance read returns what the address received in the range and how much of that no
block of either tier spends; over all heights, what it received less what was spent of it. -/
theorem balance_exact {view : ChainView} {chain : Chain} {floor tip : Height}
    (composed : Composed view chain floor tip) (parser : AddressParser)
    (address : TransparentAddress) {budget : ReadBudget}
    (within : 2 * (chain.paying parser address).length ≤ budget.remaining) {range : HeightRange}
    (reaches : range.stop.value < max (tip.value + 1) (seamOf view.finalised.watermark))
    (supply : ∀ bound, total (chain.utxosBelow parser address bound) ≤ maxZatoshis)
    (flow : total (chain.paying parser address) < 2 ^ 128) :
    ∃ (result : AddressBalance) (budget' : ReadBudget),
      (view.balance parser address range).Returns budget result budget' ∧
      result.received.value = total ((chain.paying parser address).filter fun receive =>
        covers range receive.height) ∧
      result.balance.value = total ((chain.paying parser address).filter fun receive =>
        covers range receive.height && chain.unspentBelow
          (max (tip.value + 1) (seamOf view.finalised.watermark)) receive) ∧
      (range.start.value = 0 →
        range.stop.value + 1 = max (tip.value + 1) (seamOf view.finalised.watermark) →
        result.balance.value + total (((chain.spentPairs parser address).filter fun pair =>
          pair.2.height ≤ range.stop).map Prod.fst) = result.received.value) := by
  rcases composed.balance_returns parser address reaches supply flow within with
    ⟨result, budget', returned, received, held⟩
  refine ⟨result, budget', returned, received, held, fun whole last => ?_⟩
  rw [received, held, ← last]
  exact chain.held_add_spent parser address whole

/-- A store at genesis, and the window over a payment and its spend. -/
def windowedView : ChainView :=
  ⟨sampleStore spentChain .genesis, sampleWindow samplePaid [sampleSpent]⟩

/-- Paid and spent in the window: received, and not held. -/
theorem balance_exact_windowed : Composed windowedView spentChain ⟨1, by decide⟩ ⟨2, by decide⟩ ∧
    ∃ (result : AddressBalance) (budget' : ReadBudget),
      (windowedView.balance sampleParser ⟨""⟩ ⟨⟨0, by decide⟩, ⟨2, by decide⟩⟩).Returns ⟨10, 10⟩
        result budget' ∧ result.received.value = 5 ∧ result.balance.value = 0 := by
  have composed : Composed windowedView spentChain ⟨1, by decide⟩ ⟨2, by decide⟩ :=
    ⟨⟨rfl, fun _ => rfl, fun _ => rfl⟩, ⟨by decide, by decide⟩, by decide, by decide⟩
  have supply : ∀ bound, total (spentChain.utxosBelow sampleParser ⟨""⟩ bound) ≤ maxZatoshis :=
    fun bound => Nat.le_trans (total_filter_le _ _) (by decide)
  rcases @balance_exact _ _ _ _ composed sampleParser ⟨""⟩ ⟨10, 10⟩ (by decide)
    ⟨⟨0, by decide⟩, ⟨2, by decide⟩⟩ (by decide) supply (by decide) with
    ⟨result, budget', returned, received, held, _⟩
  exact ⟨composed, result, budget', returned, received.trans (by decide), held.trans (by decide)⟩

/-- A store that holds a payment and its spend, and the window over the payment only. -/
def laggingView : ChainView :=
  ⟨sampleStore spentChain ⟨2, by decide⟩, sampleWindow samplePaid []⟩

/-- A spend that only the store holds, above the window's tip, counts against the balance up to that
tip. -/
theorem balance_counts_spend_above_tip :
    Composed laggingView spentChain ⟨1, by decide⟩ ⟨1, by decide⟩ ∧
    ((laggingView.balance sampleParser ⟨""⟩ ⟨⟨0, by decide⟩, ⟨1, by decide⟩⟩).run
      ⟨10, 10⟩).1.toOption.map (fun result => (result.balance.value, result.received.value)) =
        some (0, 5) ∧ total ((spentChain.paying sampleParser ⟨""⟩).filter fun receive =>
      covers ⟨⟨0, by decide⟩, ⟨1, by decide⟩⟩ receive.height &&
        spentChain.unspentBelow 2 receive) = 5 :=
  ⟨⟨⟨rfl, fun _ => rfl, fun _ => rfl⟩, ⟨by decide, by decide⟩, by decide, by decide⟩,
    by decide +kernel, by decide +kernel⟩

end Zaino.Transparent
