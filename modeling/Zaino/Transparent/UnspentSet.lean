import Zaino.Transparent.LocalRead

/-!
# The composed unspent set

A store and a window over one chain, meeting at the seam (`Composed`). The composed unspent read
adds what the window pays the address at any height it retains to what the store leaves unspent, so
an output that both tiers hold is listed by both. `unspentOutpoints_exact_iff` says exactly when the
answer is nevertheless the chain's unspent set: when no output of the address is created at a
height both tiers hold and left unspent, and, should the store reach above the window's tip,
nothing it holds of the address is created or spent up there.
-/

namespace Zaino.Transparent

open Zaino Library ChainHead List Chain TransparentReceive List.Perm

/-- The heights the store holds are those below this one. -/
def seamOf : Option Height → Nat
  | none => 0
  | some watermark => watermark.value + 1

/-- Both tiers hold parts of one chain: the store every block up to its watermark, the window the
blocks from `floor` to `tip`, with no height missing in between. -/
structure Composed (view : ChainView) (chain : Chain) (floor tip : Height) : Prop where
  stored : view.finalised.Serves
    (chain.select fun height => height.value < seamOf view.finalised.watermark)
  windowed : Window view.nonFinalised (chain.select fun height => floor ≤ height ∧ height ≤ tip)
  covered : coverage view.nonFinalised = some ⟨floor, tip⟩
  meets : floor.value ≤ seamOf view.finalised.watermark

/-- Where the store ends and the window takes over. -/
abbrev ChainView.seam (view : ChainView) : Nat := seamOf view.finalised.watermark

namespace Chain

variable (chain : Chain) (parser : AddressParser) (address : TransparentAddress)

/-- Whether no block below a height spends an output. -/
def unspentBelow (bound : Nat) (receive : TransparentReceive) : Bool :=
  match chain.spendOf receive.outpoint with
  | none => true
  | some spend => bound ≤ spend.height.value

/-- The outputs that pay an address in the blocks below a height and that none of those blocks
spends. -/
def utxosBelow (bound : Nat) : List TransparentReceive :=
  (chain.paying parser address).filter fun receive =>
    receive.height.value < bound ∧ chain.unspentBelow bound receive

/-- What the store holds of an address, if it has indexed the blocks below a height. -/
abbrev Held (bound : Nat) (held : List Utxo) : Prop :=
  held.Perm ((chain.utxosBelow parser address bound).map (storeUtxo parser address))

/-- What identifies an unspent output: its outpoint, value and height. -/
def record (receive : TransparentReceive) : Outpoint × Zatoshis × Height :=
  (receive.outpoint, receive.value, receive.height)

variable {chain}

theorem unspentBelow_eq_true {bound : Nat} {receive : TransparentReceive} :
    chain.unspentBelow bound receive = true ↔
      ∀ spend ∈ chain.inputs, spend.outpoint = receive.outpoint → bound ≤ spend.height.value := by
  unfold unspentBelow
  cases found : chain.spendOf receive.outpoint with
  | none =>
    have absent := spendOf_eq_none.mp found
    exact ⟨fun _ spend member names => absurd names (absent spend member), fun _ => rfl⟩
  | some spend =>
    rcases spendOf_eq_some.mp found with ⟨member, names⟩
    refine ⟨fun late other at_other other_names => ?_,
      fun all => decide_eq_true (all spend member names)⟩
    rw [chain.input_eq at_other member (other_names.trans names.symm)]
    exact of_decide_eq_true late

/-- The part of the chain below a height leaves unspent what nothing below that height spends. -/
theorem select_spendOf_isNone {bound : Nat} {receive : TransparentReceive} :
    ((chain.select fun height => height.value < bound).spendOf receive.outpoint).isNone =
      chain.unspentBelow bound receive := by
  rw [Bool.eq_iff_iff, Option.isNone_iff_eq_none, spendOf_eq_none, unspentBelow_eq_true,
    select_inputs]
  simp only [mem_filter, decide_eq_true_eq]
  constructor
  · intro none_below spend member names
    rcases Nat.lt_or_ge spend.height.value bound with below | above
    · exact absurd names (none_below spend ⟨member, below⟩)
    · exact above
  · intro late spend member names
    have above := late spend member.1 names
    omega

end Chain

/-- What identifies an unspent output in an answer. -/
def Utxo.record (utxo : Utxo) : Outpoint × Zatoshis × Height :=
  (utxo.outpoint, utxo.satoshis, utxo.height)

namespace Composed

variable {view : ChainView} {chain : Chain} {floor tip : Height}
  (composed : Composed view chain floor tip) (parser : AddressParser)
  (address : TransparentAddress)

include composed

/-- What the store holds unspent of an address. -/
theorem held_returns {budget : ReadBudget}
    (within : (chain.paying parser address).length ≤ budget.remaining) :
    ∃ (held : List Utxo) (budget' : ReadBudget),
      (view.finalised.unspentOutpoints parser address).Returns budget held budget' ∧
      budget.remaining ≤ budget'.remaining + (chain.paying parser address).length ∧
      chain.Held parser address view.seam held := by
  have fewer := length_filter_le (fun receive : TransparentReceive =>
    decide (receive.height.value < view.seam)) (chain.paying parser address)
  have read := composed.stored.unspentOutpoints_returns parser address budget.limit
    (budget.remaining - ((chain.paying parser address).filter fun receive =>
      receive.height.value < view.seam).length)
  rw [select_paying, Nat.sub_add_cancel (by omega), filter_filter] at read
  rcases read with ⟨held, returned, perm⟩
  refine ⟨held, _, returned, ?_, ?_⟩
  · dsimp only
    omega
  · refine perm.trans (of_eq ?_)
    congr 1
    refine filter_congr fun receive _ => ?_
    rw [select_spendOf_isNone, Bool.decide_and, Bool.decide_eq_true, Bool.and_comm]

/-- What the window pays an address at heights it holds. -/
theorem windowPart_receives (receivesIn spendsIn : Option HeightRange) (held : List Utxo)
    (inside : ∀ height, inRange receivesIn height = true → floor ≤ height ∧ height ≤ tip) :
    (view.windowPart parser address receivesIn spendsIn held).receives =
      (chain.paying parser address).filter fun receive => inRange receivesIn receive.height := by
  cases receivesIn with
  | none =>
    have nothing : (view.windowPart parser address none spendsIn held).receives = [] := by
      cases spendsIn <;> rfl
    rw [nothing]
    exact (filter_eq_nil_iff.mpr fun _ _ => Bool.false_ne_true).symm
  | some range =>
    have asked : (view.windowPart parser address (some range) spendsIn held).receives =
        receives view.nonFinalised parser address range := by
      cases spendsIn <;> rfl
    have read := composed.windowed.receives_eq parser address range
    rw [select_paying, filter_filter] at read
    refine (asked.trans read).trans (filter_congr fun receive _ => ?_)
    refine Bool.and_eq_left_iff_imp.mpr fun covered => ?_
    exact decide_eq_true (inside receive.height covered)

/-- What the window spends in a range it holds: those of the candidates the ledger spends there. -/
theorem mem_windowPart_spends {receivesIn : Option HeightRange} {spendsIn : HeightRange}
    (held : List Utxo)
    (inside : ∀ height, inRange receivesIn height = true → floor ≤ height ∧ height ≤ tip)
    (within : ∀ height, inRange (some spendsIn) height = true → floor ≤ height ∧ height ≤ tip)
    (spend : TransparentSpend) :
    spend ∈ (view.windowPart parser address receivesIn (some spendsIn) held).spends ↔
      spend ∈ chain.inputs ∧ covers spendsIn spend.height = true ∧
        (spend.outpoint ∈ held.map Utxo.outpoint ∨
          ∃ receive ∈ chain.paying parser address, inRange receivesIn receive.height = true ∧
            receive.outpoint = spend.outpoint) := by
  have received :=
    composed.windowPart_receives parser address receivesIn (some spendsIn) held inside
  have read := composed.windowed.spends_eq (held.map Utxo.outpoint ++
    ((view.windowPart parser address receivesIn (some spendsIn) held).receives.map
      outpoint)) spendsIn
  rw [received, select_inputs] at read
  have spends_eq : (view.windowPart parser address receivesIn (some spendsIn) held).spends =
      spends view.nonFinalised (held.map Utxo.outpoint ++
        ((view.windowPart parser address receivesIn (some spendsIn) held).receives.map
          outpoint)) spendsIn := rfl
  rw [spends_eq, received, read]
  simp only [mem_filter, mem_append, mem_map, decide_eq_true_eq, and_assoc]
  constructor
  · intro found
    exact ⟨found.1, found.2.2.2⟩
  · intro found
    have inside := within _ found.2.1
    exact ⟨found.1, inside.1, inside.2, found.2⟩

variable {parser address} {held : List Utxo} (perm : chain.Held parser address view.seam held)

include perm

omit composed in
/-- The outpoints the store holds unspent, among those of the address. -/
theorem outpoint_mem_held_iff {receive : TransparentReceive} (pays : receive ∈ chain.paying parser address) :
    receive.outpoint ∈ held.map Utxo.outpoint ↔ receive.height.value < view.seam ∧
        chain.unspentBelow view.seam receive = true := by
  rw [(perm.map Utxo.outpoint).mem_iff, map_map]
  constructor
  · intro member
    rcases mem_map.mp member with ⟨other, at_other, names⟩
    rcases mem_filter.mp at_other with ⟨other_pays, holds⟩
    have same := chain.output_eq (mem_paying.mp other_pays).1 (mem_paying.mp pays).1
      names
    rw [← same]
    exact of_decide_eq_true holds
  · intro holds
    exact mem_map.mpr
      ⟨receive, mem_filter.mpr ⟨pays, decide_eq_true holds⟩, rfl⟩

/-- For an output among the candidates, not spent by the window is not spent up to its tip. -/
theorem not_spent_eq {receivesIn : Option HeightRange}
    (inside : ∀ height, inRange receivesIn height = true → floor ≤ height ∧ height ≤ tip)
    (receive : TransparentReceive) (pays : receive ∈ chain.paying parser address)
    (candidate : (receive.height.value < view.seam ∧ chain.unspentBelow view.seam receive = true) ∨
      inRange receivesIn receive.height = true) :
    (!(view.windowPart parser address receivesIn (some ⟨floor, tip⟩) held).spent
      receive.outpoint) = chain.unspentBelow (tip.value + 1) receive := by
  have spends_iff : ∀ spend, spend ∈ (view.windowPart parser address receivesIn
      (some ⟨floor, tip⟩) held).spends ↔ _ :=
    composed.mem_windowPart_spends parser address held inside fun _ => of_decide_eq_true
  rw [Bool.eq_iff_iff, Bool.not_eq_true', ← Bool.not_eq_true, WindowPart.spent, any_eq_true,
    unspentBelow_eq_true]
  constructor
  · intro unspent spend member names
    by_contra early
    have below : spend.height.value ≤ tip.value := by omega
    -- The spend is not below the window: it is above the watermark, or above the creation.
    have above : floor ≤ spend.height := by
      rcases candidate with of_store | of_window
      · have late := unspentBelow_eq_true.mp of_store.2 spend member names
        exact Nat.le_trans composed.meets late
      · exact Nat.le_trans (inside receive.height of_window).1
          (chain.created_before_spent (mem_paying.mp pays).1 member names)
    have covered : covers ⟨floor, tip⟩ spend.height = true := decide_eq_true ⟨above, below⟩
    refine unspent ⟨spend, (spends_iff spend).mpr ⟨member, covered, ?_⟩, decide_eq_true names⟩
    rcases candidate with of_store | of_window
    · rw [names]
      exact Or.inl ((outpoint_mem_held_iff perm pays).mpr of_store)
    · exact Or.inr ⟨receive, pays, of_window, names.symm⟩
  · intro unspent found
    rcases found with ⟨spend, at_spend, names⟩
    rcases (spends_iff spend).mp at_spend with ⟨member, covered, _⟩
    have late := unspent spend member (of_decide_eq_true names)
    have below := Height.le_def.mp (of_decide_eq_true covered).2
    dsimp only at below
    omega

omit perm

variable (parser address)

/-- The composed unspent read lists what the store leaves unspent and the window does not spend,
and what the window pays and does not spend. -/
theorem unspentOutpoints_returns {budget : ReadBudget}
    (within : (chain.paying parser address).length ≤ budget.remaining) :
    ∃ (utxos : List Utxo) (budget' : ReadBudget),
      (view.unspentOutpoints parser address).Returns budget utxos budget' ∧
      (utxos.map Utxo.record).Perm (((chain.paying parser address).filter fun receive =>
            (receive.height.value < view.seam ∧ chain.unspentBelow view.seam receive) ∧
            chain.unspentBelow (tip.value + 1) receive).map Chain.record ++
          ((chain.paying parser address).filter fun receive =>
            (floor ≤ receive.height ∧ receive.height ≤ tip) ∧
            chain.unspentBelow (tip.value + 1) receive).map Chain.record) := by
  rcases composed.held_returns parser address within with ⟨held, budget', returned, _, perm⟩
  have whole : ∀ height, inRange (some ⟨floor, tip⟩) height = true → floor ≤ height ∧ height ≤ tip :=
    fun height => of_decide_eq_true
  have part_receives := composed.windowPart_receives parser address (some ⟨floor, tip⟩)
    (some ⟨floor, tip⟩) held whole
  have not_spent := composed.not_spent_eq perm whole
  generalize is_part : view.windowPart parser address (some ⟨floor, tip⟩) (some ⟨floor, tip⟩) held =
    part at part_receives not_spent
  refine ⟨(held.filter fun utxo => !part.spent utxo.outpoint) ++
    (part.receives.filter fun receive => !part.spent receive.outpoint).map
      (intoUtxo address), budget', ?_, ?_⟩
  · refine returned.bind ?_
    rw [composed.covered]
    exact Fallible.returns_pure.mpr ⟨by rw [is_part], rfl⟩
  · rw [map_append]
    refine append ?_ (of_eq ?_)
    · refine ((perm.filter _).map _).trans (of_eq ?_)
      rw [utxosBelow, filter_map, map_map, filter_filter]
      refine congrArg (List.map Chain.record) (filter_congr fun receive pays => ?_)
      by_cases held_here : receive.height.value < view.seam ∧
          chain.unspentBelow view.seam receive = true
      · have same := not_spent receive pays (Or.inl held_here)
        change ((!part.spent receive.outpoint) && _) = _
        rw [same]
        simp [held_here]
      · simp [held_here]
    · rw [map_map, part_receives, filter_filter]
      refine congrArg (List.map Chain.record) (filter_congr fun receive pays => ?_)
      by_cases inside : floor ≤ receive.height ∧ receive.height ≤ tip
      · have same := not_spent receive pays (Or.inr (decide_eq_true inside))
        simp [inside, inRange, covers, same]
      · simp [inside, inRange, covers]

end Composed

/-- How an output of the address is misreported by the composed unspent read. The last two ways
need a store that reaches above the window's tip. -/
inductive Misreported (chain : Chain) (seam : Nat) (floor tip : Height)
    (receive : TransparentReceive) : Prop
  /-- Left unspent, and created at a height that both tiers hold: listed twice. -/
  | heldByBoth (above : floor ≤ receive.height) (below : receive.height ≤ tip)
      (stored : receive.height.value < seam) (kept : chain.unspentBelow seam receive = true)
      (unspent : chain.unspentBelow (tip.value + 1) receive = true)
  /-- Created below the window, and spent in the store only above the tip: left out. -/
  | spentAboveTip (below : receive.height < floor) (reached : receive.height ≤ tip)
      (unspent : chain.unspentBelow (tip.value + 1) receive = true)
      (spent : chain.unspentBelow seam receive = false)
  /-- Created in the store above the tip, and left unspent there: listed too early. -/
  | createdAboveTip (above : tip < receive.height) (stored : receive.height.value < seam)
      (kept : chain.unspentBelow seam receive = true)

/-- An output is listed as often as it should be exactly when it is not misreported. -/
theorem counts_iff_not_misreported {chain : Chain} {seam : Nat} {floor tip : Height}
    {receive : TransparentReceive} (created : receive ∈ chain.outputs)
    (meets : floor.value ≤ seam) :
    (decide ((receive.height.value < seam ∧ chain.unspentBelow seam receive) ∧
        chain.unspentBelow (tip.value + 1) receive)).toNat +
      (decide ((floor ≤ receive.height ∧ receive.height ≤ tip) ∧
        chain.unspentBelow (tip.value + 1) receive)).toNat =
      (decide (receive.height.value < tip.value + 1 ∧
        chain.unspentBelow (tip.value + 1) receive)).toNat ↔
      ¬ Misreported chain seam floor tip receive := by
  -- An output created above the tip is not spent up to it.
  have unspent_above : tip < receive.height →
      chain.unspentBelow (tip.value + 1) receive = true := fun above =>
    unspentBelow_eq_true.mpr fun spend member names =>
      Nat.le_trans above (chain.created_before_spent created member names)
  constructor
  · intro counts misreported
    cases misreported with
    | heldByBoth above below stored kept unspent =>
      have reached : receive.height.value < tip.value + 1 := Nat.lt_succ_of_le below
      simp [above, below, stored, kept, unspent, reached] at counts
    | spentAboveTip below reached unspent spent =>
      have reached' : receive.height.value < tip.value + 1 := Nat.lt_succ_of_le reached
      have not_above : ¬ floor ≤ receive.height := Nat.not_le_of_lt below
      simp [spent, unspent, reached', not_above] at counts
    | createdAboveTip above stored kept =>
      have not_reached : ¬ receive.height.value < tip.value + 1 := Nat.not_lt_of_le above
      have not_below : ¬ receive.height ≤ tip := Nat.not_le_of_lt above
      simp [stored, kept, unspent_above above, not_reached, not_below] at counts
  · intro reported
    rcases Nat.lt_or_ge tip.value receive.height.value with above | below
    · have not_reached : ¬ receive.height.value < tip.value + 1 := Nat.not_lt_of_le above
      have not_below : ¬ receive.height ≤ tip := Nat.not_le_of_lt above
      have not_kept : ¬ (receive.height.value < seam ∧ chain.unspentBelow seam receive = true) :=
        fun held => reported (.createdAboveTip above held.1 held.2)
      simp [not_reached, not_below, not_kept]
    · have reached : receive.height.value < tip.value + 1 := Nat.lt_succ_of_le below
      have below' : receive.height ≤ tip := below
      cases unspent : chain.unspentBelow (tip.value + 1) receive with
      | false => simp
      | true =>
        by_cases above : floor ≤ receive.height
        · have not_kept : ¬ (receive.height.value < seam ∧
              chain.unspentBelow seam receive = true) :=
            fun held => reported (.heldByBoth above below held.1 held.2 unspent)
          simp [above, below', reached, not_kept]
        -- Below the window, so in the store: the store has not seen it spent either.
        · have under : receive.height < floor := Nat.lt_of_not_le above
          have stored : receive.height.value < seam := Nat.lt_of_lt_of_le under meets
          have kept : chain.unspentBelow seam receive = true := by
            cases seen : chain.unspentBelow seam receive with
            | true => rfl
            | false => exact absurd (.spentAboveTip under below unspent seen) reported
          simp [above, reached, stored, kept]

/-- The composed unspent read returns exactly the outputs that pay the address in the blocks up to
the window's tip and that none of them spends, each once, exactly when it misreports none of the
address's outputs. -/
theorem unspentOutpoints_exact_iff {view : ChainView} {chain : Chain} {floor tip : Height}
    (composed : Composed view chain floor tip) (parser : AddressParser)
    (address : TransparentAddress) {budget : ReadBudget}
    (within : (chain.paying parser address).length ≤ budget.remaining) :
    (∃ (utxos : List Utxo) (budget' : ReadBudget),
      (view.unspentOutpoints parser address).Returns budget utxos budget' ∧
      (utxos.map Utxo.record).Perm
        ((chain.utxosBelow parser address (tip.value + 1)).map Chain.record)) ↔
      ∀ receive ∈ chain.paying parser address,
        ¬ Misreported chain (seamOf view.finalised.watermark) floor tip receive := by
  rcases composed.unspentOutpoints_returns parser address within with
    ⟨utxos, budget', returned, listed⟩
  have distinct : ((chain.paying parser address).map Chain.record).Nodup := by
    refine List.Nodup.of_map Prod.fst ?_
    rw [map_map]
    exact chain.paying_nodup parser address
  have counted := filter_append_filter_perm_iff distinct
    (fun receive => (receive.height.value < view.seam ∧
      chain.unspentBelow view.seam receive) ∧
      chain.unspentBelow (tip.value + 1) receive)
    (fun receive => (floor ≤ receive.height ∧ receive.height ≤ tip) ∧
      chain.unspentBelow (tip.value + 1) receive)
    (fun receive => receive.height.value < tip.value + 1 ∧
      chain.unspentBelow (tip.value + 1) receive)
  have exact_iff : (∃ (utxos : List Utxo) (budget' : ReadBudget),
      (view.unspentOutpoints parser address).Returns budget utxos budget' ∧
      (utxos.map Utxo.record).Perm
        ((chain.utxosBelow parser address (tip.value + 1)).map Chain.record)) ↔
      (utxos.map Utxo.record).Perm
        ((chain.utxosBelow parser address (tip.value + 1)).map Chain.record) := by
    constructor
    · intro found
      rcases found with ⟨other, _, other_returned, perm⟩
      rw [(returned.det other_returned).1]
      exact perm
    · intro perm
      exact ⟨utxos, budget', returned, perm⟩
  rw [exact_iff]
  refine Iff.trans ⟨fun perm => listed.symm.trans perm, fun perm => listed.trans perm⟩
    (counted.trans (forall_congr' fun receive => ?_))
  refine imp_congr_right fun pays => ?_
  exact counts_iff_not_misreported (Chain.mem_paying.mp pays).1 composed.meets

/-- The store at genesis, the window over heights one and two. -/
def adjacentView : ChainView :=
  ⟨sampleStore keptChain .genesis, sampleWindow samplePaid [sampleMined 2 []]⟩

/-- Tiers that do not overlap report the output once. -/
theorem unspentOutpoints_exact_adjacent :
    Composed adjacentView keptChain ⟨1, by decide⟩ ⟨2, by decide⟩ ∧
    ∃ (utxos : List Utxo) (budget' : ReadBudget),
      (adjacentView.unspentOutpoints sampleParser ⟨""⟩).Returns ⟨10, 10⟩ utxos budget' ∧
      (utxos.map Utxo.record).Perm
        ((keptChain.utxosBelow sampleParser ⟨""⟩ 3).map Chain.record) := by
  have composed : Composed adjacentView keptChain ⟨1, by decide⟩ ⟨2, by decide⟩ :=
    ⟨⟨rfl, fun _ => rfl, fun _ => rfl⟩, ⟨by decide, by decide⟩, by decide, by decide⟩
  refine ⟨composed, (unspentOutpoints_exact_iff composed sampleParser ⟨""⟩ (by decide)).mpr ?_⟩
  intro receive pays misreported
  have at_one : ∀ receive ∈ keptChain.paying sampleParser ⟨""⟩, receive.height.value = 1 := by
    decide
  have height := at_one receive pays
  cases misreported with
  | heldByBoth _ _ stored _ _ =>
    have below : receive.height.value < 1 := stored
    omega
  | spentAboveTip below _ _ _ =>
    have under : receive.height.value < 1 := below
    omega
  | createdAboveTip above _ _ =>
    have over_tip : 2 < receive.height.value := above
    omega

/-- The store up to height one, the window over heights one and two. -/
def overlapView : ChainView :=
  ⟨sampleStore keptChain (sampleHeight 1), sampleWindow samplePaid [sampleMined 2 []]⟩

theorem overlapView_composed : Composed overlapView keptChain ⟨1, by decide⟩ ⟨2, by decide⟩ where
  stored := ⟨rfl, fun _ => rfl, fun _ => rfl⟩
  windowed := ⟨by decide, by decide⟩
  covered := by decide
  meets := by decide

/-- An output paid at the height both tiers hold is listed twice. -/
theorem unspentOutpoints_lists_twice :
    Composed overlapView keptChain ⟨1, by decide⟩ ⟨2, by decide⟩ ∧
    ((overlapView.unspentOutpoints sampleParser ⟨""⟩).run ⟨10, 10⟩).1.toOption.map
        (List.map Utxo.outpoint) = some [⟨1, 0⟩, ⟨1, 0⟩] ∧
    (keptChain.utxosBelow sampleParser ⟨""⟩ 3).map TransparentReceive.outpoint = [⟨1, 0⟩] :=
  ⟨overlapView_composed, by decide +kernel, by decide +kernel⟩

end Zaino.Transparent
