import Zaino.Library.Bisection
import Zaino.Mempool.Snapshot

/-!
# Excluding transactions by a suffix

A client names the transactions it already has by suffixes of their txids. In the txids sorted by their reversed
bytes those with a suffix are neighbours, which start where the smaller ones end (`filter_eq_takeWhile_drop`).
-/

namespace Zaino.Mempool

open Library List

/-- The txid that ends with a suffix, if it is the only one. -/
def uniqueSuffixMatch (txidsReversedSorted : List TransactionId) (suffix : List UInt8) :
    Option TransactionId :=
  if suffix.isEmpty ∨ 32 < suffix.length then none
  else
    -- A prefix of the reversed txid is compared with the reversed suffix.
    uniqueMatch (fun txid => (reversedTxidKey txid).take suffix.length)
      (suffix.reverse.map UInt8.toNat) txidsReversedSorted

/-- The entries of a snapshot without those that a suffix names alone. -/
def MempoolSnapshot.getFilteredEntries (snapshot : MempoolSnapshot)
    (excludeSuffixes : List (List UInt8)) : List MempoolEntry :=
  let excluded := excludeSuffixes.filterMap (uniqueSuffixMatch snapshot.txidsSorted)
  snapshot.entriesInOrder.filter fun entry => !excluded.contains entry.txid

variable {suffix : List UInt8} {txid : TransactionId}

theorem take_reversedTxidKey_eq : (reversedTxidKey txid).take suffix.length =
    suffix.reverse.map UInt8.toNat ↔ suffix <:+ txidBytes txid := by
  rw [reversedTxidKey, ← map_take, ← reverse_prefix, prefix_iff_eq_take,
    length_reverse, map_inj_right fun _ _ => UInt8.toNat_inj.mp, eq_comm]

theorem lt_of_take_lt {a b : List Nat} {n : Nat} (lt : a.take n < b.take n) : a < b := by
  induction n generalizing a b with
  | zero => simp at lt
  | succ n ih =>
    cases b with
    | nil => simp at lt
    | cons y b =>
      cases a with
      | nil => exact nil_lt_cons y b
      | cons x a =>
        exact cons_lt_cons_iff.mpr ((cons_lt_cons_iff.mp lt).imp_right (And.imp_right ih))

/-- A suffix names a transaction of a set: it has one to 32 bytes, and no other txid ends with it. -/
def Names (suffix : List UInt8) (txids : List TransactionId) (txid : TransactionId) : Prop :=
  (1 ≤ suffix.length ∧ suffix.length ≤ 32) ∧ suffix <:+ txidBytes txid ∧
    ∀ other ∈ txids, suffix <:+ txidBytes other → other = txid

instance (txids : List TransactionId) : Decidable (Names suffix txids txid) :=
  inferInstanceAs (Decidable (_ ∧ _ ∧ _))

theorem uniqueSuffixMatch_eq_some {snapshot : MempoolSnapshot}
    (listed : txid ∈ snapshot.byTxid.txids) :
    uniqueSuffixMatch snapshot.txidsSorted suffix = some txid ↔
      Names suffix snapshot.byTxid.txids txid := by
  have ranked : snapshot.txidsSorted.Pairwise fun a b => (reversedTxidKey a).take suffix.length ≤
      (reversedTxidKey b).take suffix.length :=
    snapshot.sorted.imp fun le => not_lt.mp fun lt => not_lt.mpr le (lt_of_take_lt lt)
  have only : snapshot.txidsSorted.filter (fun other => suffix <:+ txidBytes other) = [txid] ↔
      suffix <:+ txidBytes txid ∧
        ∀ other ∈ snapshot.byTxid.txids, suffix <:+ txidBytes other → other = txid := by
    rw [← perm_singleton, perm_ext_iff_of_nodup (snapshot.nodup_txidsSorted.filter _)
      (nodup_singleton txid)]
    simp only [mem_filter, decide_eq_true_eq, mem_singleton, snapshot.listed.mem_iff]
    refine ⟨fun same => ⟨((same txid).mpr rfl).2, fun other member ends => (same other).mp ⟨member, ends⟩⟩,
      fun names other => ⟨fun found => names.2 other found.1 found.2, ?_⟩⟩
    rintro rfl
    exact ⟨listed, names.1⟩
  rw [uniqueSuffixMatch, Names, ← only]
  simp only [isEmpty_iff_length_eq_zero]
  split
  · exact ⟨fun found => (by cases found), fun names => by omega⟩
  · rw [uniqueMatch_eq_some ranked]
    simp only [take_reversedTxidKey_eq]
    exact (and_iff_right (by omega)).symm

/-- Exactly the transactions that a suffix names are left out, and the others keep their order. -/
theorem getFilteredEntries_eq (snapshot : MempoolSnapshot) (suffixes : List (List UInt8)) :
    snapshot.getFilteredEntries suffixes = snapshot.entriesInOrder.filter fun entry =>
      ∀ suffix ∈ suffixes, ¬ Names suffix snapshot.byTxid.txids entry.txid := by
  refine filter_congr fun entry member => ?_
  have listed : entry.txid ∈ snapshot.byTxid.txids :=
    AList.mem_keys.mp (AList.lookup_isSome.mp
      (Option.isSome_of_eq_some (MempoolSnapshot.mem_entriesInOrder.mp member)))
  rw [contains_eq_mem, ← decide_not, decide_eq_decide]
  simp only [mem_filterMap, not_exists, not_and, uniqueSuffixMatch_eq_some listed]

end Zaino.Mempool
