import Mathlib.Data.List.Dedup
import Mathlib.Data.List.Flatten
import Mathlib.Data.List.Perm.Subperm

/-!
# Ledgers of created and spent outputs

A ledger says what each transaction creates under which key and which keys it spends. The live
outputs of a list of transactions are those created and not spent, and a transaction is carried as
long as it has one.

When one list of transactions follows another, the live outputs of both together are those of the
first and the new ones, less what the second list spends (`live_append_perm`). The carried
transactions change by those of the second list and by the ones it drains (`carriers_append`).
Draining is not decided by looking at the spent keys alone: a transaction that is spent from and
carries nothing afterwards may have carried nothing before (`length_emptied`).
-/

namespace Library

open List

/-- Transactions, each with an identifier, the keyed outputs it creates and the keys it spends. A
key names the transaction that created it. -/
structure Ledger (τ ι κ β : Type) where
  id : τ → ι
  owner : κ → ι
  created : τ → List (κ × β)
  spent : τ → List κ
  owned : ∀ tx, ∀ entry ∈ created tx, owner entry.1 = id tx

namespace Ledger

variable {τ ι κ β : Type} (L : Ledger τ ι κ β)

def createdBy (txs : List τ) : List (κ × β) :=
  txs.flatMap L.created

def spentBy (txs : List τ) : List κ :=
  txs.flatMap L.spent

/-- `rest` may come after `first`: identifiers and keys do not repeat, no key is spent twice, none
is spent before it is created, and every spend names a transaction. -/
structure Follows (first rest : List τ) : Prop where
  ids : ((first ++ rest).map L.id).Nodup
  outputs : ((L.createdBy (first ++ rest)).map Prod.fst).Nodup
  once : (L.spentBy (first ++ rest)).Nodup
  later : ∀ entry ∈ L.createdBy rest, entry.1 ∉ L.spentBy first
  known : ∀ key ∈ L.spentBy rest, L.owner key ∈ (first ++ rest).map L.id

variable (first rest : List τ)

theorem createdBy_append : L.createdBy (first ++ rest) = L.createdBy first ++ L.createdBy rest :=
  flatMap_append

theorem spentBy_append : L.spentBy (first ++ rest) = L.spentBy first ++ L.spentBy rest :=
  flatMap_append

theorem mem_createdBy {txs : List τ} {entry : κ × β} :
    entry ∈ L.createdBy txs ↔ ∃ tx ∈ txs, entry ∈ L.created tx :=
  mem_flatMap

theorem mem_spentBy {txs : List τ} {key : κ} : key ∈ L.spentBy txs ↔ ∃ tx ∈ txs, key ∈ L.spent tx :=
  mem_flatMap

section Follows

variable {L} {first rest : List τ}

/-- A transaction of `first` is none of `rest`. -/
theorem Follows.not_in_rest (follows : L.Follows first rest) {tx : τ} (member : tx ∈ first) :
    L.id tx ∉ rest.map L.id := by
  have distinct := follows.ids
  rw [map_append, nodup_append'] at distinct
  exact fun later => distinct.2.2 (mem_map_of_mem member) later

/-- Identifiers name at most one transaction. -/
theorem Follows.eq_of_id (follows : L.Follows first rest) {tx tx' : τ}
    (member : tx ∈ first ++ rest) (member' : tx' ∈ first ++ rest) (same : L.id tx = L.id tx') :
    tx = tx' :=
  inj_on_of_nodup_map follows.ids member member' same

/-- What `rest` spends was not spent by `first`. -/
theorem Follows.fresh (follows : L.Follows first rest) {key : κ} (spent : key ∈ L.spentBy rest) :
    key ∉ L.spentBy first := by
  have once := follows.once
  rw [spentBy_append, nodup_append'] at once
  exact fun before => once.2.2 before spent

end Follows

variable [DecidableEq κ]

/-- Whether a transaction has an output that is not among the spends. -/
def carries (spends : List κ) (tx : τ) : Bool :=
  (L.created tx).any fun entry => decide (entry.1 ∉ spends)

/-- The outputs created and not spent. -/
def live (txs : List τ) : List (κ × β) :=
  (L.createdBy txs).filter fun entry => decide (entry.1 ∉ L.spentBy txs)

/-- How many transactions have a live output. -/
def carriers (txs : List τ) : Nat :=
  txs.countP (L.carries (L.spentBy txs))

/-- How many transactions of `first` lose their last live output to `rest`. -/
def drained (first rest : List τ) : Nat :=
  first.countP fun tx =>
    L.carries (L.spentBy first) tx && !L.carries (L.spentBy (first ++ rest)) tx

theorem carries_eq_true {spends : List κ} {tx : τ} :
    L.carries spends tx = true ↔ ∃ entry ∈ L.created tx, entry.1 ∉ spends := by
  simp [carries]

theorem carries_eq_false {spends : List κ} {tx : τ} :
    L.carries spends tx = false ↔ ∀ entry ∈ L.created tx, entry.1 ∈ spends := by
  simp [carries]

theorem mem_live {txs : List τ} {entry : κ × β} :
    entry ∈ L.live txs ↔ entry ∈ L.createdBy txs ∧ entry.1 ∉ L.spentBy txs := by
  simp [live]

/-- With more spends a transaction carries no more. -/
theorem carries_append {spends more : List κ} {tx : τ}
    (carried : L.carries (spends ++ more) tx = true) : L.carries spends tx = true := by
  obtain ⟨entry, member, unspent⟩ := L.carries_eq_true.mp carried
  exact L.carries_eq_true.mpr ⟨entry, member, fun spent => unspent (mem_append_left _ spent)⟩

/-- Each transaction that carries has an unspent output of its own. -/
theorem countP_carries_le (spends : List κ) (txs : List τ) : txs.countP (L.carries spends) ≤
      ((L.createdBy txs).filter fun entry => decide (entry.1 ∉ spends)).length := by
  induction txs with
  | nil => exact Nat.le_refl 0
  | cons tx txs ih =>
    have here : (if L.carries spends tx = true then 1 else 0) ≤
        ((L.created tx).filter fun entry => decide (entry.1 ∉ spends)).length := by
      split
      · rename_i carried
        obtain ⟨entry, created, unspent⟩ := L.carries_eq_true.mp carried
        exact length_pos_of_mem (mem_filter.mpr ⟨created, by simp [unspent]⟩)
      · exact Nat.zero_le _
    rw [countP_cons, createdBy, flatMap_cons, filter_append, length_append]
    rw [createdBy] at ih
    omega

variable {L} {first rest : List τ}

/-! ## The live outputs -/

theorem live_append (follows : L.Follows first rest) : L.live (first ++ rest) =
      (L.live first ++ L.createdBy rest).filter fun entry => decide (entry.1 ∉ L.spentBy rest) := by
  rw [live, live, createdBy_append, filter_append, filter_append, filter_filter]
  congr 1
  · apply filter_congr
    intro entry _
    simp [spentBy_append, Bool.and_comm]
  · apply filter_congr
    intro entry created
    have unspent := follows.later entry created
    simp [spentBy_append, unspent]

/-- The live outputs afterwards, with those that were spent, are the live outputs before, with those
that were created. -/
theorem live_append_perm (follows : L.Follows first rest) {spent : List (κ × β)}
    (distinct : spent.Nodup) (resolves : ∀ entry, entry ∈ spent ↔
      entry.1 ∈ L.spentBy rest ∧ entry ∈ L.createdBy (first ++ rest)) :
    (L.live (first ++ rest) ++ spent).Perm (L.live first ++ L.createdBy rest) := by
  have created_nodup : (L.createdBy (first ++ rest)).Nodup := follows.outputs.of_map
  have before_nodup : (L.live first ++ L.createdBy rest).Nodup := by
    rw [createdBy_append] at created_nodup
    exact created_nodup.sublist (filter_sublist.append_right _)
  have same : spent.Perm ((L.live first ++ L.createdBy rest).filter fun entry =>
      !decide (entry.1 ∉ L.spentBy rest)) := by
    rw [perm_ext_iff_of_nodup distinct (before_nodup.filter _)]
    intro entry
    rw [resolves, mem_filter, mem_append, mem_live, createdBy_append, mem_append]
    by_cases spent_key : entry.1 ∈ L.spentBy rest
    · simp [spent_key, follows.fresh spent_key]
    · simp [spent_key]
  rw [live_append follows]
  exact (same.append_left _).trans (filter_append_perm _ _)

/-! ## The carried transactions -/

theorem countP_and_not_add {α : Type} (p q : α → Bool) (items : List α)
    (implied : ∀ x ∈ items, q x = true → p x = true) :
    items.countP q + (items.countP fun x => p x && !q x) = items.countP p := by
  induction items with
  | nil => rfl
  | cons x items ih =>
    cases p_x : p x <;> cases q_x : q x <;> simp_all <;> omega

theorem carriers_append (first rest : List τ) : L.carriers (first ++ rest) + L.drained first rest =
      L.carriers first + rest.countP (L.carries (L.spentBy (first ++ rest))) := by
  have split := countP_and_not_add (L.carries (L.spentBy first))
    (L.carries (L.spentBy (first ++ rest))) first fun tx _ carried => by
      rw [spentBy_append] at carried
      exact L.carries_append carried
  rw [carriers, countP_append, carriers, drained, ← split]
  omega

/-- Any listing of the transactions that are drained has as many entries as there are. -/
theorem length_eq_drained (follows : L.Follows first rest) {ids : List ι} (distinct : ids.Nodup)
    (lists : ∀ t, t ∈ ids ↔ ∃ tx ∈ first, L.id tx = t ∧
      L.carries (L.spentBy first) tx = true ∧ L.carries (L.spentBy (first ++ rest)) tx = false) :
    ids.length = L.drained first rest := by
  have ids_nodup := follows.ids
  rw [map_append, nodup_append'] at ids_nodup
  have drained_nodup : ((first.filter fun tx => L.carries (L.spentBy first) tx &&
      !L.carries (L.spentBy (first ++ rest)) tx).map L.id).Nodup :=
    ids_nodup.1.sublist (filter_sublist.map _)
  have same : ids.Perm ((first.filter fun tx => L.carries (L.spentBy first) tx &&
      !L.carries (L.spentBy (first ++ rest)) tx).map L.id) := by
    rw [perm_ext_iff_of_nodup distinct drained_nodup]
    intro t
    rw [lists, mem_map]
    constructor
    · rintro ⟨tx, member, same, before, after⟩
      exact ⟨tx, mem_filter.mpr ⟨member, by simp [before, after]⟩, same⟩
    · rintro ⟨tx, member, same⟩
      obtain ⟨member, kept⟩ := mem_filter.mp member
      simp only [Bool.and_eq_true, Bool.not_eq_eq_eq_not, Bool.not_true] at kept
      exact ⟨tx, member, same, kept.1, kept.2⟩
  rw [drained, countP_eq_length_filter, same.length_eq, length_map]

variable [DecidableEq ι]

variable (L) in
/-- The transactions outside `rest` that `rest` spends from. -/
def touched (rest : List τ) : List ι :=
  ((L.spentBy rest).map L.owner).dedup.filter fun t => decide (t ∉ rest.map L.id)

variable (L) in
/-- The transactions that `rest` spends from and that carry nothing afterwards. -/
def emptied (first rest : List τ) : List ι :=
  (L.touched rest).filter fun t =>
    decide (∀ tx ∈ first, L.id tx = t → L.carries (L.spentBy (first ++ rest)) tx = false)

variable (L) in
/-- The transactions that `rest` spends from although they carried nothing before. -/
def stranded (first rest : List τ) : List ι :=
  (L.touched rest).filter fun t =>
    decide (∀ tx ∈ first, L.id tx = t → L.carries (L.spentBy first) tx = false)

omit [DecidableEq κ] in
theorem mem_touched {t : ι} :
    t ∈ L.touched rest ↔ (∃ key ∈ L.spentBy rest, L.owner key = t) ∧ t ∉ rest.map L.id := by
  simp [touched]

omit [DecidableEq κ] in
variable (L) in
theorem nodup_touched (rest : List τ) : (L.touched rest).Nodup :=
  (nodup_dedup _).filter _

/-- A transaction that is drained was spent from. -/
theorem Follows.touched_of_drained (follows : L.Follows first rest) {tx : τ} (member : tx ∈ first)
    (before : L.carries (L.spentBy first) tx = true)
    (after : L.carries (L.spentBy (first ++ rest)) tx = false) :
    ∃ entry ∈ L.created tx, entry.1 ∈ L.spentBy rest ∧ L.id tx ∈ L.touched rest := by
  obtain ⟨entry, created, unspent⟩ := L.carries_eq_true.mp before
  have spent := L.carries_eq_false.mp after entry created
  rw [spentBy_append, mem_append] at spent
  have spent_later := spent.resolve_left unspent
  refine ⟨entry, created, spent_later, mem_touched.mpr ⟨⟨entry.1, spent_later, ?_⟩, ?_⟩⟩
  · exact L.owned tx entry created
  · exact follows.not_in_rest member

/-- What is spent from and carries nothing afterwards was drained or carried nothing before. -/
theorem length_emptied (follows : L.Follows first rest) :
    (L.emptied first rest).length = L.drained first rest + (L.stranded first rest).length := by
  let carriedBefore : ι → Bool := fun t =>
    decide (∃ tx ∈ first, L.id tx = t ∧ L.carries (L.spentBy first) tx = true)
  have drained_part : ((L.emptied first rest).filter carriedBefore).length =
      L.drained first rest := by
    refine length_eq_drained follows (((L.nodup_touched rest).filter _).filter _) fun t => ?_
    simp only [mem_filter, emptied, decide_eq_true_eq, carriedBefore]
    constructor
    · rintro ⟨⟨_, empty⟩, tx, member, same, before⟩
      exact ⟨tx, member, same, before, empty tx member same⟩
    · rintro ⟨tx, member, rfl, before, after⟩
      obtain ⟨_, _, _, touched⟩ := follows.touched_of_drained member before after
      refine ⟨⟨touched, fun tx' member' same => ?_⟩, tx, member, rfl, before⟩
      rw [follows.eq_of_id (mem_append_left _ member') (mem_append_left _ member) same]
      exact after
  have stranded_part : (L.emptied first rest).filter (fun t => !carriedBefore t) =
      L.stranded first rest := by
    rw [emptied, stranded, filter_filter]
    apply filter_congr
    intro t _
    rw [Bool.eq_iff_iff]
    simp only [carriedBefore, Bool.and_eq_true, Bool.not_eq_eq_eq_not, Bool.not_true,
      decide_eq_true_eq, decide_eq_false_iff_not, not_exists, not_and, Bool.not_eq_true]
    constructor
    · rintro ⟨before, _⟩ tx member same
      exact before tx member same
    · intro before
      refine ⟨before, fun tx member same => ?_⟩
      cases after : L.carries (L.spentBy (first ++ rest)) tx with
      | false => rfl
      | true =>
        rw [spentBy_append] at after
        rw [← before tx member same, L.carries_append after]
  rw [← drained_part, ← stranded_part]
  exact length_eq_length_filter_add carriedBefore

end Ledger

end Library
