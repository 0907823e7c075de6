import Zaino.ChainStore.V1.Appends

/-!
# Moving the totals by a block

The counters of the summary are moved by a block in several steps, each checked: up by what it
creates and down by what it spends when it is applied, down and then up when it is reversed. `Moves`
says what one such step does, and the lemmas here say what a sequence of them does, so that a whole
delta is described by its sums (`applyBlockDelta`, `reverseBlockDelta`).
-/

namespace Zaino.ChainStore

open Library

namespace AccumulatorDirection

def opposite : AccumulatorDirection → AccumulatorDirection
  | .apply => .reverse
  | .reverse => .apply

/-- A counter moved by an amount: up within the range of a `u64`, or down. -/
def Moves (direction : AccumulatorDirection) (a amount b : Nat) : Prop :=
  match direction with
  | .apply => a + amount < 2 ^ 64 ∧ b = a + amount
  | .reverse => b + amount = a

variable {direction : AccumulatorDirection} {a b amount : Nat}

theorem enter_eq_some : direction.enter a amount = some b ↔ direction.Moves a amount b := by
  cases direction with
  | apply => exact checkedAdd_eq_some
  | reverse => exact checkedSub_eq_some

theorem leave_eq_some : direction.leave a amount = some b ↔ direction.opposite.Moves a amount b := by
  cases direction with
  | apply => exact checkedSub_eq_some
  | reverse => exact checkedAdd_eq_some

theorem moves_zero (fits : a < 2 ^ 64) : direction.Moves a 0 b ↔ b = a := by
  cases direction with
  | apply => exact ⟨And.right, fun same => ⟨fits, same⟩⟩
  | reverse => exact Iff.rfl

/-- Two moves in one direction are one move. -/
theorem moves_add {first second : Nat} : direction.Moves a (first + second) b ↔
      ∃ middle, direction.Moves a first middle ∧ direction.Moves middle second b := by
  cases direction with
  | apply =>
    constructor
    · rintro ⟨fits, rfl⟩
      exact ⟨a + first, ⟨by omega, rfl⟩, by omega, by omega⟩
    · rintro ⟨middle, ⟨_, rfl⟩, fits, rfl⟩
      exact ⟨by omega, by omega⟩
  | reverse =>
    simp only [Moves]
    constructor
    · rintro rfl
      exact ⟨b + second, by omega, rfl⟩
    · rintro ⟨middle, rfl, rfl⟩
      omega

theorem Moves.fits (fits : a < 2 ^ 64) (moves : direction.Moves a amount b) : b < 2 ^ 64 := by
  cases direction with
  | apply => exact moves.2 ▸ moves.1
  | reverse =>
    simp only [Moves] at moves
    omega

theorem Moves.amount_fits (fits : a < 2 ^ 64) (moves : direction.Moves a amount b) :
    amount < 2 ^ 64 := by
  cases direction with
  | apply =>
    have := moves.1
    omega
  | reverse =>
    simp only [Moves] at moves
    omega

end AccumulatorDirection

open AccumulatorDirection

/-! ## Counting transactions -/

variable {α : Type} {items : List α} {acc acc' : TxOutSetAccumulator} {hashes : Hashes}
  {adding : Bool}

/-- The transaction count moved by one, or left. -/
abbrev countIf (counts : Bool) (move : Nat → Nat → Option Nat) (acc : TxOutSetAccumulator) :
    Except StoreError TxOutSetAccumulator :=
  if counts then do
    let transactions ← okOr (move acc.transactions 1)
      (.custom "txout-set accumulator transaction count underflow or overflow" [])
    return { acc with transactions }
  else .ok acc

/-- Steps that each move the transaction count by one, or leave it, move it by their number. -/
theorem foldlM_counting {step : TxOutSetAccumulator → α → Except StoreError
    TxOutSetAccumulator} {direction : AccumulatorDirection} {counts : α → Bool}
    (move : Nat → Nat → Option Nat)
    (moves : ∀ a b amount, move a amount = some b ↔ direction.Moves a amount b)
    (steps : ∀ acc, ∀ x ∈ items, step acc x = countIf (counts x) move acc)
    (fits : acc.transactions < 2 ^ 64) : items.foldlM step acc = .ok acc' ↔
      ∃ transactions, direction.Moves acc.transactions (items.countP counts) transactions ∧
        acc' = { acc with transactions } := by
  induction items generalizing acc with
  | nil =>
    rw [List.foldlM_nil, List.countP_nil]
    simp only [pure, Except.pure, Except.ok.injEq, moves_zero fits, exists_eq_left]
    exact eq_comm
  | cons x items ih =>
    have later : ∀ acc, ∀ y ∈ items, step acc y = _ := fun acc y member =>
      steps acc y (List.mem_cons_of_mem x member)
    rw [List.foldlM_cons, steps acc x List.mem_cons_self, List.countP_cons, countIf]
    by_cases counted : counts x = true
    · rw [if_pos counted, if_pos counted, bind_assoc, bind_eq_ok, Nat.add_comm]
      constructor
      · rintro ⟨transactions, moved, rest⟩
        have first := (moves _ _ _).mp (okOr_eq_ok.mp moved)
        obtain ⟨last, second, is_last⟩ := (ih later (first.fits fits)).mp rest
        exact ⟨last, moves_add.mpr ⟨transactions, first, second⟩, is_last⟩
      · rintro ⟨last, both, rfl⟩
        obtain ⟨transactions, first, second⟩ := moves_add.mp both
        exact ⟨transactions, okOr_eq_ok.mpr ((moves _ _ _).mpr first),
          (ih later (first.fits fits)).mpr ⟨last, second, rfl⟩⟩
    · rw [if_neg counted, if_neg counted, ok_bind, Nat.add_zero]
      exact ih later fits

/-! ## Summing counts -/

theorem foldlM_checkedAdd (size : α → Nat) (e : StoreError) {start total : Nat}
    (fits : start < 2 ^ 64) :
    items.foldlM (fun total x => okOr (checkedAdd total (size x)) e) start = .ok total ↔
      AccumulatorDirection.apply.Moves start (items.map size).sum total := by
  induction items generalizing start with
  | nil =>
    rw [List.map_nil, List.sum_nil, moves_zero fits]
    simp [pure, Except.pure, eq_comm]
  | cons x items ih =>
    rw [List.foldlM_cons, bind_eq_ok, List.map_cons, List.sum_cons, moves_add]
    refine exists_congr fun middle => ?_
    rw [okOr_eq_ok, checkedAdd_eq_some]
    refine and_congr_right fun moved => ih ?_
    rw [moved.2]
    exact moved.1

/-! ## Entries -/

/-- The direction that an entry list moves the totals in. -/
def directionOf (adding : Bool) : AccumulatorDirection :=
  if adding then .apply else .reverse

theorem applyTxOutSetEntryDelta_eq_ok {entry : Outpoint × TxOutCompact} :
    applyTxOutSetEntryDelta hashes adding acc entry = .ok acc' ↔ ∃ totalZatoshis bytesSerialized,
        (directionOf adding).Moves acc.totalZatoshis entry.2.value.toNat totalZatoshis ∧
        (directionOf adding).Moves acc.bytesSerialized txoutSetEntryLen bytesSerialized ∧
        acc' = { acc with
          totalZatoshis, bytesSerialized
          hashSerialized := acc.hashSerialized ^^^ entryDigest hashes entry.1 entry.2 } := by
  cases adding with
  | true =>
    simp only [applyTxOutSetEntryDelta, if_true, bind_eq_ok, okOr_eq_ok, checkedAdd_eq_some, pure,
      Except.pure, Except.ok.injEq, directionOf, Moves]
    constructor
    · rintro ⟨total, total_moves, bytes, bytes_moves, rfl⟩
      exact ⟨total, bytes, total_moves, bytes_moves, rfl⟩
    · rintro ⟨total, bytes, total_moves, bytes_moves, rfl⟩
      exact ⟨total, total_moves, bytes, bytes_moves, rfl⟩
  | false =>
    simp only [applyTxOutSetEntryDelta, Bool.false_eq_true, if_false, bind_eq_ok, okOr_eq_ok,
      checkedSub_eq_some, pure, Except.pure, Except.ok.injEq, directionOf, Moves]
    constructor
    · rintro ⟨total, total_moves, bytes, bytes_moves, rfl⟩
      exact ⟨total, bytes, total_moves, bytes_moves, rfl⟩
    · rintro ⟨total, bytes, total_moves, bytes_moves, rfl⟩
      exact ⟨total, total_moves, bytes, bytes_moves, rfl⟩

theorem applyTxOutSetEntriesDelta_eq_ok {entries : List (Outpoint × TxOutCompact)}
    (total_fits : acc.totalZatoshis < 2 ^ 64) (bytes_fit : acc.bytesSerialized < 2 ^ 64) :
    applyTxOutSetEntriesDelta hashes acc entries adding = .ok acc' ↔
      ∃ totalZatoshis bytesSerialized,
        (directionOf adding).Moves acc.totalZatoshis (entrySum hashes entries).totalZatoshis
          totalZatoshis ∧
        (directionOf adding).Moves acc.bytesSerialized (entrySum hashes entries).bytesSerialized
          bytesSerialized ∧ acc' = { acc with
          totalZatoshis, bytesSerialized
          hashSerialized := acc.hashSerialized ^^^ (entrySum hashes entries).hashSerialized } := by
  induction entries generalizing acc with
  | nil =>
    simp only [applyTxOutSetEntriesDelta, List.foldlM_nil, pure, Except.pure, Except.ok.injEq,
      entrySum_nil, TxOutSetAccumulator.zero_totalZatoshis,
      TxOutSetAccumulator.zero_bytesSerialized, TxOutSetAccumulator.zero_hashSerialized,
      moves_zero total_fits, moves_zero bytes_fit]
    constructor
    · rintro rfl
      exact ⟨_, _, rfl, rfl, by ext1 <;> simp⟩
    · rintro ⟨_, _, rfl, rfl, rfl⟩
      ext1 <;> simp
  | cons entry entries ih =>
    rw [applyTxOutSetEntriesDelta, List.foldlM_cons, bind_eq_ok, entrySum_cons]
    simp only [TxOutSetAccumulator.add_totalZatoshis, TxOutSetAccumulator.add_bytesSerialized,
      TxOutSetAccumulator.add_hashSerialized, moves_add, applyTxOutSetEntryDelta_eq_ok]
    constructor
    · rintro ⟨next, ⟨total, bytes, total_moves, bytes_moves, rfl⟩, rest⟩
      obtain ⟨total', bytes', total_rest, bytes_rest, is_last⟩ :=
        (ih (total_moves.fits total_fits) (bytes_moves.fits bytes_fit)).mp rest
      refine ⟨total', bytes', ⟨total, total_moves, total_rest⟩, ⟨bytes, bytes_moves, bytes_rest⟩, ?_⟩
      rw [is_last, ← BitVec.xor_assoc]
      rfl
    · rintro ⟨total', bytes', ⟨total, total_moves, total_rest⟩, ⟨bytes, bytes_moves, bytes_rest⟩,
        rfl⟩
      refine ⟨_, ⟨total, bytes, total_moves, bytes_moves, rfl⟩, ?_⟩
      refine (ih (total_moves.fits total_fits) (bytes_moves.fits bytes_fit)).mpr
        ⟨total', bytes', total_rest, bytes_rest, ?_⟩
      rw [← BitVec.xor_assoc]
      rfl

theorem directionOf_apply (direction : AccumulatorDirection) :
    directionOf (direction == .apply) = direction := by
  cases direction <;> rfl

theorem directionOf_reverse (direction : AccumulatorDirection) :
    directionOf (direction == .reverse) = direction.opposite := by
  cases direction <;> rfl

theorem applyEntryDeltas_eq_ok {created spent : List (Outpoint × TxOutCompact)}
    {direction : AccumulatorDirection} (total_fits : acc.totalZatoshis < 2 ^ 64)
    (bytes_fit : acc.bytesSerialized < 2 ^ 64) :
    applyEntryDeltas hashes acc created spent direction = .ok acc' ↔
      ∃ totalZatoshis bytesSerialized,
        (∃ middle, direction.Moves acc.totalZatoshis (entrySum hashes created).totalZatoshis middle ∧
          direction.opposite.Moves middle (entrySum hashes spent).totalZatoshis totalZatoshis) ∧
        (∃ middle,
          direction.Moves acc.bytesSerialized (entrySum hashes created).bytesSerialized middle ∧
          direction.opposite.Moves middle (entrySum hashes spent).bytesSerialized bytesSerialized) ∧
        acc' = { acc with
          totalZatoshis, bytesSerialized
          hashSerialized := acc.hashSerialized ^^^ (entrySum hashes created).hashSerialized ^^^
            (entrySum hashes spent).hashSerialized } := by
  simp only [applyEntryDeltas, bind_eq_ok, applyTxOutSetEntriesDelta_eq_ok total_fits bytes_fit,
    directionOf_apply]
  constructor
  · rintro ⟨_, ⟨total, bytes, total_moves, bytes_moves, rfl⟩, rest⟩
    obtain ⟨total', bytes', total_moves', bytes_moves', rfl⟩ :=
      (applyTxOutSetEntriesDelta_eq_ok (by exact total_moves.fits total_fits)
        (by exact bytes_moves.fits bytes_fit)).mp rest
    rw [directionOf_reverse] at total_moves' bytes_moves'
    exact ⟨total', bytes', ⟨total, total_moves, total_moves'⟩, ⟨bytes, bytes_moves, bytes_moves'⟩,
      rfl⟩
  · rintro ⟨total', bytes', ⟨total, total_moves, total_moves'⟩, ⟨bytes, bytes_moves, bytes_moves'⟩,
      rfl⟩
    refine ⟨_, ⟨total, bytes, total_moves, bytes_moves, rfl⟩, ?_⟩
    rw [← directionOf_reverse] at total_moves' bytes_moves'
    exact (applyTxOutSetEntriesDelta_eq_ok (by exact total_moves.fits total_fits)
      (by exact bytes_moves.fits bytes_fit)).mpr ⟨total', bytes', total_moves', bytes_moves', rfl⟩

/-! ## The whole delta -/

/-- All the counters, moved by what is gained and by what is lost. -/
structure DeltaMoves (direction : AccumulatorDirection) (gained lost acc acc' : TxOutSetAccumulator) :
    Prop where
  transactions : ∃ middle, direction.Moves acc.transactions gained.transactions middle ∧
    direction.opposite.Moves middle lost.transactions acc'.transactions
  transactionOutputs : ∃ middle,
    direction.Moves acc.transactionOutputs gained.transactionOutputs middle ∧
      direction.opposite.Moves middle lost.transactionOutputs acc'.transactionOutputs
  bytesSerialized : ∃ middle, direction.Moves acc.bytesSerialized gained.bytesSerialized middle ∧
    direction.opposite.Moves middle lost.bytesSerialized acc'.bytesSerialized
  totalZatoshis : ∃ middle, direction.Moves acc.totalZatoshis gained.totalZatoshis middle ∧
    direction.opposite.Moves middle lost.totalZatoshis acc'.totalZatoshis
  hashSerialized : acc'.hashSerialized =
    acc.hashSerialized ^^^ gained.hashSerialized ^^^ lost.hashSerialized

variable {gained lost acc acc' : TxOutSetAccumulator}

/-- Applying a block: the counters hold what is gained, and what is lost is taken out. -/
theorem deltaMoves_apply : DeltaMoves .apply gained lost acc acc' ↔
      (acc + gained).Fits ∧ acc' + lost = acc + gained := by
  constructor
  · rintro ⟨⟨_, ⟨fits₁, rfl⟩, left₁⟩, ⟨_, ⟨fits₂, rfl⟩, left₂⟩, ⟨_, ⟨fits₃, rfl⟩, left₃⟩,
      ⟨_, ⟨fits₄, rfl⟩, left₄⟩, xored⟩
    refine ⟨⟨fits₁, fits₂, fits₃, fits₄⟩, ?_⟩
    ext1
    · exact left₁
    · exact left₂
    · exact left₃
    · simp [xored, BitVec.xor_assoc]
    · exact left₄
  · rintro ⟨fits, same⟩
    have parts := TxOutSetAccumulator.ext_iff.mp same
    refine ⟨⟨_, ⟨fits.transactions, rfl⟩, parts.1⟩, ⟨_, ⟨fits.transactionOutputs, rfl⟩, parts.2.1⟩,
      ⟨_, ⟨fits.bytesSerialized, rfl⟩, parts.2.2.1⟩, ⟨_, ⟨fits.totalZatoshis, rfl⟩, parts.2.2.2.2⟩,
      ?_⟩
    apply TxOutSetAccumulator.xor_right_cancel (c := lost.hashSerialized)
    rw [BitVec.xor_assoc _ lost.hashSerialized]
    simpa using parts.2.2.2.1

/-- Reversing a block: what is gained is taken out first, and the counters hold what is lost. -/
theorem deltaMoves_reverse : DeltaMoves .reverse gained lost acc acc' ↔
      acc'.Fits ∧ ∃ rest, rest + gained = acc ∧ acc' = rest + lost := by
  constructor
  · rintro ⟨⟨m₁, left₁, fits₁, is₁⟩, ⟨m₂, left₂, fits₂, is₂⟩, ⟨m₃, left₃, fits₃, is₃⟩,
      ⟨m₄, left₄, fits₄, is₄⟩, xored⟩
    refine ⟨⟨is₁ ▸ fits₁, is₂ ▸ fits₂, is₃ ▸ fits₃, is₄ ▸ fits₄⟩,
      ⟨m₁, m₂, m₃, acc.hashSerialized ^^^ gained.hashSerialized, m₄⟩, ?_, ?_⟩
    · ext1
      · exact left₁
      · exact left₂
      · exact left₃
      · simp [BitVec.xor_assoc]
      · exact left₄
    · ext1
      · exact is₁
      · exact is₂
      · exact is₃
      · exact xored
      · exact is₄
  · rintro ⟨fits, rest, rfl, rfl⟩
    refine ⟨⟨rest.transactions, rfl, fits.transactions, rfl⟩,
      ⟨rest.transactionOutputs, rfl, fits.transactionOutputs, rfl⟩,
      ⟨rest.bytesSerialized, rfl, fits.bytesSerialized, rfl⟩,
      ⟨rest.totalZatoshis, rfl, fits.totalZatoshis, rfl⟩, ?_⟩
    simp [BitVec.xor_assoc]

end Zaino.ChainStore
