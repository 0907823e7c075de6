import Zaino.Transparent.LocalRead

/-!
# The script of a reported output

The store rebuilds the script of an unspent output from the address that was asked for; the window
reports the output's own. They agree unless the output has a 21-byte script of a tag and a hash, which
is filed under the address like its standard script.
-/

namespace Zaino.Transparent

open Zaino Library List

variable {parser : AddressParser} {address : TransparentAddress} {script : Script} {hash : Hash160}

/-- The hashes of addresses have 20 bytes, as their type in the source says. -/
def AddressParser.Sized (parser : AddressParser) : Prop :=
  ∀ address key, transparentAddressKey parser address = some key → key.hash.length = 20

/-- A tag byte and the address's hash. -/
def Tagged (parser : AddressParser) (script : Script) (address : TransparentAddress) : Prop :=
  ∃ hash, transparentAddressKey parser address = some ⟨.p2pkh, hash⟩ ∧ script = 0x00 :: hash ∨
    transparentAddressKey parser address = some ⟨.p2sh, hash⟩ ∧ script = 0x01 :: hash

/-- A script that is told by its length and the bytes around its hash. -/
theorem framed_iff (sized : hash.length = 20) (first last : List UInt8) :
    ((script.length = first.length + 20 + last.length ∧ first <+: script ∧ last <:+ script) ∧
      (script.drop first.length).take 20 = hash) ↔ script = first ++ hash ++ last := by
  refine ⟨fun ⟨⟨length, ⟨rest, opens⟩, closes⟩, middle⟩ => ?_, fun framed => ?_⟩
  · rw [suffix_iff_eq_drop, length, Nat.add_sub_cancel, ← opens, ← drop_drop, drop_left] at closes
    rw [← opens, drop_left] at middle
    rw [← opens, append_assoc, ← middle, closes, take_append_drop]
  · rw [framed, length_append, length_append, sized, append_assoc, drop_left, take_left' sized]
    exact ⟨⟨rfl, prefix_append _ _, append_assoc first hash last ▸ suffix_append _ _⟩, rfl⟩

/-- The scripts that are filed under a key: its standard one and the tagged one. -/
theorem scriptKey_eq_iff (sized : hash.length = 20) : (scriptKey script = ⟨.p2pkh, hash⟩ ↔
      script = [0x76, 0xa9, 0x14] ++ hash ++ [0x88, 0xac] ∨ script = 0x00 :: hash) ∧
    (scriptKey script = ⟨.p2sh, hash⟩ ↔
      script = [0xa9, 0x14] ++ hash ++ [0x87] ∨ script = 0x01 :: hash) := by
  rw [← framed_iff sized [0x76, 0xa9, 0x14] [0x88, 0xac], ← framed_iff sized [0xa9, 0x14] [0x87]]
  unfold scriptKey classifyScript
  grind

/-- A script that pays an address is its standard script or the tagged one, and not both. -/
theorem scriptPays_cases (sized : parser.Sized) : (scriptPays parser script address = true ↔
      scriptPaying parser address = some script ∨ Tagged parser script address) ∧
    (Tagged parser script address → scriptPaying parser address ≠ some script) := by
  cases resolved : transparentAddressKey parser address with
  | none => simp [scriptPays, scriptPaying, Tagged, resolved]
  | some key =>
    have hash_sized := sized address key resolved
    have filed := @scriptKey_eq_iff script _ hash_sized
    have standard := scriptPaying_of_key resolved
    have lengths : ∀ (standard : Script) tag, standard.length ≠ 21 → script = tag :: key.hash →
        standard ≠ script := by
      intro standard tag long is_tagged same
      rw [same, is_tagged, length_cons, hash_sized] at long
      exact long rfl
    rw [scriptPays_eq_true_iff resolved]
    rcases key with ⟨kind, hash⟩
    cases kind with
    | p2pkh =>
      simp only [scriptPaying, Tagged, resolved, Option.some.injEq, AddrId.mk.injEq]
      simpa [eq_comm] using And.intro filed.1 (lengths _ 0x00 (by simp [hash_sized]))
    | p2sh =>
      simp only [scriptPaying, Tagged, resolved, Option.some.injEq, AddrId.mk.injEq]
      simpa [eq_comm] using And.intro filed.2 (lengths _ 0x01 (by simp [hash_sized]))
    | nonStandard => simp [scriptPaying, resolved] at standard

/-- The store's report of an output is the window's, unless its script is tagged. -/
theorem storeUtxo_eq_iff (sized : parser.Sized) {receive : TransparentReceive}
    (pays : scriptPays parser receive.script address = true) :
    storeUtxo parser address receive = receive.intoUtxo address ↔
      ¬Tagged parser receive.script address := by
  obtain ⟨filed, apart⟩ := @scriptPays_cases parser address receive.script sized
  simp only [storeUtxo, TransparentReceive.intoUtxo, Utxo.mk.injEq, true_and, and_true]
  refine ⟨fun same tagged => apart tagged ?_, fun untagged => ?_⟩
  · cases resolved : transparentAddressKey parser address with
    | none =>
      rw [scriptPays_of_no_key resolved] at pays
      cases pays
    | some key =>
      obtain ⟨standard, is_standard⟩ := scriptPaying_of_key resolved
      rw [is_standard] at same ⊢
      exact congrArg some same
  · rw [(filed.mp pays).resolve_right untagged]
    rfl

/-- The outputs of an address that a chain leaves unspent. -/
abbrev Chain.unspent (chain : Chain) (parser : AddressParser) (address : TransparentAddress) :
    List TransparentReceive :=
  (chain.paying parser address).filter fun receive => (chain.spendOf receive.outpoint).isNone

/-- A script is recognised as paying an address exactly if it is the one rebuilt for it, and the store
reports the address's outputs with their own scripts, as the window does, exactly when they are not
tagged. -/
theorem scripts_agree_iff (sized : parser.Sized) (address : TransparentAddress) :
    (∀ script : Script,
      (scriptPays parser script address = true ↔ scriptPaying parser address = some script) ↔
        ¬Tagged parser script address) ∧
    ∀ (store : StoreSnapshot) (chain : Chain), store.Serves chain → ∀ limit remaining : Nat,
      ∃ utxos : List Utxo, (store.unspentOutpoints parser address).Returns
        ⟨limit, remaining + (chain.paying parser address).length⟩ utxos ⟨limit, remaining⟩ ∧
      (utxos.Perm ((chain.unspent parser address).map (TransparentReceive.intoUtxo address)) ↔
        ∀ receive ∈ chain.unspent parser address, ¬Tagged parser receive.script address) := by
  refine ⟨fun script => ?_, fun store chain serves limit remaining => ?_⟩
  · obtain ⟨filed, apart⟩ := @scriptPays_cases parser address script sized
    rw [filed]
    exact ⟨fun same tagged => apart tagged (same.mp (.inr tagged)), fun untagged => by simp [untagged]⟩
  · obtain ⟨utxos, returned, reported⟩ :=
      serves.unspentOutpoints_returns parser address limit remaining
    refine ⟨utxos, returned, fun same receive member => ?_, fun untagged => reported.trans (.of_eq ?_)⟩
    · have paid := Chain.mem_paying.mp (mem_of_mem_filter member)
      have listed := (reported.symm.trans same).mem_iff.mp (mem_map_of_mem member)
      obtain ⟨other, at_other, is_listed⟩ := mem_map.mp listed
      have other_paid := Chain.mem_paying.mp (mem_of_mem_filter at_other)
      have names : other.outpoint = receive.outpoint := congrArg Utxo.outpoint is_listed
      rw [chain.output_eq other_paid.1 paid.1 names] at is_listed
      exact (storeUtxo_eq_iff sized paid.2).mp is_listed.symm
    · refine map_congr_left fun receive member => ?_
      exact (storeUtxo_eq_iff sized (Chain.mem_paying.mp (mem_of_mem_filter member)).2).mpr
        (untagged receive member)

theorem scripts_agree_standard : sampleParser.Sized ∧
    (scriptPays sampleParser sampleScript ⟨""⟩ = true ↔
      scriptPaying sampleParser ⟨""⟩ = some sampleScript) := by
  have sized : sampleParser.Sized := by
    intro address key resolved
    cases resolved
    rfl
  refine ⟨sized, ((scripts_agree_iff sized ⟨""⟩).1 sampleScript).mpr ?_⟩
  intro ⟨hash, tagged⟩
  rcases tagged with ⟨-, same⟩ | ⟨-, same⟩
  · cases same
  · cases same

/-- A chain that pays the tagged script of the sample address, and is indexed. -/
theorem tagged_script_reported_standard : let script : Script := 0x00 :: replicate 20 7
    let paid : Transaction := { txid := 1, transparent := ⟨[], [⟨⟨5, by decide⟩, script⟩]⟩ }
    ∃ chain : Chain, chain.blocks = [sampleMined 0 [], sampleMined 1 [paid]] ∧
      scriptPays sampleParser script ⟨""⟩ = true ∧ scriptPaying sampleParser ⟨""⟩ ≠ some script ∧
      (((sampleStore chain ⟨1, by decide⟩).unspentOutpoints sampleParser ⟨""⟩).run ⟨9, 9⟩).1.toOption.map
        (fun utxos => utxos.map Utxo.script) = some [sampleScript] := by
  intro script paid
  refine ⟨⟨[sampleMined 0 [], sampleMined 1 [paid]], ?_, ?_, ?_, ?_, ?_⟩, rfl, ?_⟩
  all_goals decide +kernel

end Zaino.Transparent
