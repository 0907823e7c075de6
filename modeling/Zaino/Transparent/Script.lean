import Zaino.Primitives

/-!
# Scripts and the addresses they pay

Outputs are keyed by what `classifyScript` reads off their script; a queried address is keyed by
`transparentAddressKey`. An output pays an address when the two keys agree.

Decoding an address string is the work of a library outside this repository, so it is a parameter:
an `AddressParser` says which strings are transparent addresses and what they lock to.
-/

namespace Zaino.Transparent

open Zaino

/-- How a script locks its value. -/
inductive ScriptType
  | p2pkh
  | p2sh
  | nonStandard
  deriving DecidableEq

/-- A 20-byte hash. -/
abbrev Hash160 : Type := List UInt8

/-- The hash and the kind an output script is filed under. -/
def classifyScript (script : Script) : Hash160 × ScriptType :=
  if script.length = 25 ∧ [0x76, 0xa9, 0x14] <+: script ∧ [0x88, 0xac] <:+ script then
    ((script.drop 3).take 20, .p2pkh)
  else if script.length = 23 ∧ [0xa9, 0x14] <+: script ∧ [0x87] <:+ script then
    ((script.drop 2).take 20, .p2sh)
  else if script.length = 21 then
    -- Read as a tag byte and a hash, as the stored rows always were.
    match script with
    | 0x00 :: hash => (hash, .p2pkh)
    | 0x01 :: hash => (hash, .p2sh)
    | _ => (script.drop 1, .nonStandard)
  else
    (script.take 20 ++ List.replicate (20 - script.length) 0, .nonStandard)

/-- An encoded address. -/
structure TransparentAddress where
  text : String
  deriving DecidableEq

/-- What a decoded transparent address locks to. -/
inductive TransparentReceiver
  | p2pkh (data : Hash160)
  | p2sh (data : Hash160)
  deriving DecidableEq

/-- The decoding of address strings; `none` for anything that is not a transparent address. -/
structure AddressParser where
  parse : TransparentAddress → Option TransparentReceiver

/-- The key an address's outputs are filed under. -/
structure AddrId where
  scriptType : ScriptType
  hash : Hash160
  deriving DecidableEq

/-- The key an address resolves to. -/
def transparentAddressKey (parser : AddressParser) (address : TransparentAddress) :
    Option AddrId :=
  (parser.parse address).map fun
    | .p2pkh data => ⟨.p2pkh, data⟩
    | .p2sh data => ⟨.p2sh, data⟩

/-- Whether a script locks its value to an address. -/
def scriptPays (parser : AddressParser) (script : Script) (address : TransparentAddress) : Bool :=
  match transparentAddressKey parser address with
  | none => false
  | some key => classifyScript script = (key.hash, key.scriptType)

/-- The standard script that pays an address. -/
def scriptPaying (parser : AddressParser) (address : TransparentAddress) : Option Script :=
  match transparentAddressKey parser address with
  | none => none
  | some ⟨.p2pkh, hash⟩ => some ([0x76, 0xa9, 0x14] ++ hash ++ [0x88, 0xac])
  | some ⟨.p2sh, hash⟩ => some ([0xa9, 0x14] ++ hash ++ [0x87])
  | some ⟨.nonStandard, _⟩ => none

/-- The key an output is filed under. -/
def scriptKey (script : Script) : AddrId :=
  ⟨(classifyScript script).2, (classifyScript script).1⟩

variable {parser : AddressParser} {address : TransparentAddress} {script : Script} {key : AddrId}

theorem scriptPays_eq_true_iff (resolved : transparentAddressKey parser address = some key) :
    scriptPays parser script address = true ↔ scriptKey script = key := by
  unfold scriptPays scriptKey
  rw [resolved]
  cases key with
  | mk kind hash =>
    simp only [decide_eq_true_eq, AddrId.mk.injEq, Prod.ext_iff]
    exact and_comm

theorem scriptPays_of_no_key (unresolved : transparentAddressKey parser address = none) :
    scriptPays parser script address = false := by
  unfold scriptPays
  rw [unresolved]

/-- An address that resolves to a key has a standard script. -/
theorem scriptPaying_of_key (resolved : transparentAddressKey parser address = some key) :
    ∃ standard, scriptPaying parser address = some standard := by
  have standard_kind : key.scriptType ≠ .nonStandard := by
    rcases Option.map_eq_some_iff.mp resolved with ⟨receiver, _, is_key⟩
    cases receiver with
    | p2pkh data => rw [← is_key]; exact ScriptType.noConfusion
    | p2sh data => rw [← is_key]; exact ScriptType.noConfusion
  unfold scriptPaying
  rw [resolved]
  rcases key with ⟨kind, hash⟩
  cases kind with
  | p2pkh => exact ⟨_, rfl⟩
  | p2sh => exact ⟨_, rfl⟩
  | nonStandard => exact absurd rfl standard_kind

end Zaino.Transparent
