import Qaspa.Lib.Outcome
import Qaspa.Lib.LittleEndian
import Qaspa.Core.Tx

/-! # The coinbase payload format

The payload of a coinbase transaction carries the blue score and subsidy of its
block, the script the miner is paid to, and arbitrary extra data. Encoder,
in-place modifier, and decoder are separate pieces of code with length checks of
their own; they agree on one format.
-/

namespace Qaspa.Coinbase

open Outcome LittleEndian List

structure MinerData where
  scriptPublicKey : ScriptPublicKey
  extraData : List UInt8
  deriving DecidableEq, Repr

structure CoinbaseData where
  blueScore : UInt64
  subsidy : UInt64
  minerData : MinerData
  deriving DecidableEq, Repr

inductive CoinbaseError where
  | payloadLenBelowMin (length minimum : Nat)
  | payloadLenAboveMax (length maximum : Nat)
  | payloadScriptPublicKeyLenAboveMax (length : Nat) (maximum : UInt8)
  | payloadCantContainScriptPublicKey (length needed : Nat)
  deriving DecidableEq, Repr

/-- The two limits of the manager that the payload functions read. -/
structure CoinbaseManager where
  coinbasePayloadScriptPublicKeyMaxLen : UInt8
  maxCoinbasePayloadLen : Nat
  deriving DecidableEq, Repr

def lengthOfBlueScore : Nat := 8
def lengthOfSubsidy : Nat := 8
def lengthOfScriptPubKeyVersion : Nat := 2
def lengthOfScriptPubKeyLength : Nat := 1

def minPayloadLength : Nat :=
  lengthOfBlueScore + lengthOfSubsidy + lengthOfScriptPubKeyVersion + lengthOfScriptPubKeyLength

/-- The part of the payload that describes the miner: script version, script
length, script, extra data. Encoder and modifier both append it. -/
def minerDataBytes (minerData : MinerData) : List UInt8 :=
  encode lengthOfScriptPubKeyVersion minerData.scriptPublicKey.version.toNat ++
    encode lengthOfScriptPubKeyLength minerData.scriptPublicKey.script.length ++
    minerData.scriptPublicKey.script ++ minerData.extraData

namespace CoinbaseManager

variable (manager : CoinbaseManager)

/-- Both writers refuse a script above the configured maximum. -/
def checkScriptLength (minerData : MinerData) : Outcome CoinbaseError Unit :=
  if minerData.scriptPublicKey.script.length >
      manager.coinbasePayloadScriptPublicKeyMaxLen.toNat then
    .error (.err (.payloadScriptPublicKeyLenAboveMax minerData.scriptPublicKey.script.length
      manager.coinbasePayloadScriptPublicKeyMaxLen))
  else .ok ()

def serializeCoinbasePayload (data : CoinbaseData) : Outcome CoinbaseError (List UInt8) := do
  manager.checkScriptLength data.minerData
  return encode lengthOfBlueScore data.blueScore.toNat ++
    encode lengthOfSubsidy data.subsidy.toNat ++ minerDataBytes data.minerData

def modifyCoinbasePayload (payload : List UInt8) (minerData : MinerData) :
    Outcome CoinbaseError (List UInt8) := do
  manager.checkScriptLength minerData
  -- keep only blue score and subsidy
  return payload.take (lengthOfBlueScore + lengthOfSubsidy) ++ minerDataBytes minerData

end CoinbaseManager

/-- The unparsed remainder of a payload. -/
structure PayloadParser where
  remaining : List UInt8

namespace PayloadParser

/-- Split off the first `count` bytes; the slice operation panics when fewer
remain. -/
def take (parser : PayloadParser) (count : Nat) :
    Outcome CoinbaseError (List UInt8 × PayloadParser) :=
  if count ≤ parser.remaining.length then
    .ok (parser.remaining.take count, ⟨parser.remaining.drop count⟩)
  else .error .panic

/-- Split off a `width`-byte little-endian number. Converting the slice to an
array of the declared width panics on any other length. -/
def takeNat (parser : PayloadParser) (width : Nat) :
    Outcome CoinbaseError (Nat × PayloadParser) := do
  let (segment, rest) ← parser.take width
  assert (segment.length == width)
  return (decode segment, rest)

variable {parser : PayloadParser}

theorem take_eq_ok {count : Nat} {result : List UInt8 × PayloadParser} :
    parser.take count = .ok result ↔
      result.1.length = count ∧ parser.remaining = result.1 ++ result.2.remaining := by
  unfold take
  split
  next hlength =>
    constructor
    · intro hresult
      cases hresult
      exact ⟨by simp [hlength], by simp⟩
    · rintro ⟨rfl, hremaining⟩
      simp only [hremaining, take_left, drop_left]
  next hlength =>
    simp only [reduceCtorEq, false_iff]
    rintro ⟨rfl, hremaining⟩
    rw [hremaining, length_append] at hlength
    omega

theorem takeNat_eq_ok {width : Nat} {result : Nat × PayloadParser} :
    parser.takeNat width = .ok result ↔
      result.1 < 256 ^ width ∧
        parser.remaining = encode width result.1 ++ result.2.remaining := by
  simp only [takeNat, bind_eq_ok, take_eq_ok, Prod.exists, assert_eq_ok, beq_iff_eq, pure_eq_ok]
  constructor
  · rintro ⟨segment, rest, ⟨hlength, hremaining⟩, _, _, hresult⟩
    cases hresult
    exact ⟨hlength ▸ decode_lt segment,
      by rw [encode_decode_of_length hlength, hremaining]⟩
  · rintro ⟨hfits, hremaining⟩
    refine ⟨encode width result.1, result.2,
      ⟨encode_length _ _, hremaining⟩, (), encode_length _ _, ?_⟩
    rw [decode_encode hfits]

/-- Enough remaining bytes are all a fixed-width read needs. -/
theorem takeNat_of_le {width : Nat} (hlength : width ≤ parser.remaining.length) :
    parser.takeNat width =
      .ok (decode (parser.remaining.take width), ⟨parser.remaining.drop width⟩) := by
  rw [takeNat_eq_ok]
  have htake : (parser.remaining.take width).length = width := by simp [hlength]
  refine ⟨?_, ?_⟩
  · simpa only [htake] using decode_lt (parser.remaining.take width)
  · simp only [encode_decode_of_length htake, take_append_drop]

end PayloadParser

namespace CoinbaseManager

variable (manager : CoinbaseManager)

def deserializeCoinbasePayload (payload : List UInt8) : Outcome CoinbaseError CoinbaseData :=
  if payload.length < minPayloadLength then
    .error (.err (.payloadLenBelowMin payload.length minPayloadLength))
  else if payload.length > manager.maxCoinbasePayloadLen then
    .error (.err (.payloadLenAboveMax payload.length manager.maxCoinbasePayloadLen))
  else do
    let (blueScore, parser) ← PayloadParser.takeNat ⟨payload⟩ lengthOfBlueScore
    let (subsidy, parser) ← parser.takeNat lengthOfSubsidy
    let (scriptPubKeyVersion, parser) ← parser.takeNat lengthOfScriptPubKeyVersion
    let (scriptPubKeyLen, parser) ← parser.takeNat lengthOfScriptPubKeyLength
    if scriptPubKeyLen > manager.coinbasePayloadScriptPublicKeyMaxLen.toNat then
      .error (.err (.payloadScriptPublicKeyLenAboveMax scriptPubKeyLen
        manager.coinbasePayloadScriptPublicKeyMaxLen))
    else if parser.remaining.length < scriptPubKeyLen then
      .error (.err (.payloadCantContainScriptPublicKey payload.length
        (minPayloadLength + scriptPubKeyLen)))
    else do
      let (script, parser) ← parser.take scriptPubKeyLen
      return {
        blueScore := UInt64.ofNat blueScore
        subsidy := UInt64.ofNat subsidy
        minerData := {
          scriptPublicKey := ⟨UInt16.ofNat scriptPubKeyVersion, script⟩
          extraData := parser.remaining } }

variable {manager : CoinbaseManager}

variable {data : CoinbaseData} {payload : List UInt8}

theorem serialize_eq_ok :
    manager.serializeCoinbasePayload data = .ok payload ↔
      data.minerData.scriptPublicKey.script.length ≤
          manager.coinbasePayloadScriptPublicKeyMaxLen.toNat ∧
        payload = encode lengthOfBlueScore data.blueScore.toNat ++
          encode lengthOfSubsidy data.subsidy.toNat ++
          minerDataBytes data.minerData := by
  simp only [serializeCoinbasePayload, checkScriptLength, check_bind_eq_ok, ite_error_eq_ok,
    gt_iff_lt, Nat.not_lt, and_true, pure_eq_ok, Except.ok.injEq]
  exact and_congr_right fun _ => eq_comm

/-- What the decoder accepts is exactly what the encoder writes, up to the
payload length limit that only the decoder checks. -/
theorem deserialize_eq_ok :
    manager.deserializeCoinbasePayload payload = .ok data ↔
      payload.length ≤ manager.maxCoinbasePayloadLen ∧
        manager.serializeCoinbasePayload data = .ok payload := by
  rw [serialize_eq_ok]
  simp only [deserializeCoinbasePayload, ite_error_eq_ok, bind_eq_ok, Prod.exists,
    PayloadParser.takeNat_eq_ok, PayloadParser.take_eq_ok, pure_eq_ok, Except.ok.injEq]
  constructor
  · rintro ⟨-, hmax, blueScore, parser₁, ⟨hblueScore, hparser₁⟩, subsidy, parser₂,
      ⟨hsubsidy, hparser₂⟩, version, parser₃, ⟨hversion, hparser₃⟩, length, parser₄,
      ⟨hlength, hparser₄⟩, hscript, -, script, parser₅, ⟨hcount, hparser₅⟩, rfl⟩
    refine ⟨by omega, by simpa only [hcount] using not_lt.mp hscript, ?_⟩
    have hblueScoreNat : (UInt64.ofNat blueScore).toNat = blueScore :=
      UInt64.toNat_ofNat_of_lt' hblueScore
    have hsubsidyNat : (UInt64.ofNat subsidy).toNat = subsidy := UInt64.toNat_ofNat_of_lt' hsubsidy
    have hversionNat : (UInt16.ofNat version).toNat = version := UInt16.toNat_ofNat_of_lt' hversion
    simp only [minerDataBytes, hblueScoreNat, hsubsidyNat, hversionNat, hcount, append_assoc]
    rw [hparser₁, hparser₂, hparser₃, hparser₄, hparser₅]
  · rintro ⟨hmax, hscript, hpayload⟩
    obtain ⟨blueScore, subsidy, ⟨version, script⟩, extraData⟩ := data
    have hlength : payload.length = minPayloadLength + script.length + extraData.length := by
      simp only [hpayload, minerDataBytes, length_append, encode_length,
        minPayloadLength]
      omega
    simp only [minerDataBytes] at hpayload hscript
    have hbyte := manager.coinbasePayloadScriptPublicKeyMaxLen.toNat_lt
    refine ⟨by omega, by omega, blueScore.toNat, ⟨_⟩, ⟨blueScore.toNat_lt, hpayload⟩,
      subsidy.toNat, ⟨_⟩, ⟨subsidy.toNat_lt, rfl⟩,
      version.toNat, ⟨_⟩, ⟨version.toNat_lt, rfl⟩,
      script.length, ⟨_⟩, ⟨by simp only [lengthOfScriptPubKeyLength]; omega, rfl⟩,
      by omega, by simp, script, ⟨extraData⟩, ⟨rfl, rfl⟩, by simp⟩

/-- The minimum length check covers the four fixed-width reads, and the script is
only split off after its length was compared with the remaining bytes. -/
theorem deserialize_ne_panic (payload : List UInt8) :
    manager.deserializeCoinbasePayload payload ≠ .error .panic := by
  unfold deserializeCoinbasePayload
  split
  · simp
  next hmin =>
  split
  · simp
  simp only [minPayloadLength] at hmin ⊢
  rw [PayloadParser.takeNat_of_le (by simp only; omega), ok_bind]
  rw [PayloadParser.takeNat_of_le (by simp only [length_drop]; omega), ok_bind]
  rw [PayloadParser.takeNat_of_le (by simp only [length_drop]; omega), ok_bind]
  rw [PayloadParser.takeNat_of_le (by simp only [length_drop]; omega), ok_bind]
  split
  · simp
  split
  · simp
  next hscript =>
  rw [PayloadParser.take, if_pos (not_lt.mp hscript)]
  simp

/-- Encoder, modifier, and decoder describe one payload format, and the decoder
returns on every byte string. -/
theorem coinbasePayload_format (manager : CoinbaseManager) :
    (∀ data : CoinbaseData, data.minerData.scriptPublicKey.script.length ≤
        manager.coinbasePayloadScriptPublicKeyMaxLen.toNat →
      ∃ payload, manager.serializeCoinbasePayload data = .ok payload ∧
        (payload.length ≤ manager.maxCoinbasePayloadLen →
          manager.deserializeCoinbasePayload payload = .ok data)) ∧
    (∀ payload data, manager.deserializeCoinbasePayload payload = .ok data →
      manager.serializeCoinbasePayload data = .ok payload) ∧
    (∀ payload, manager.deserializeCoinbasePayload payload ≠ .error .panic) ∧
    (∀ data payload minerData, manager.serializeCoinbasePayload data = .ok payload →
      manager.modifyCoinbasePayload payload minerData =
        manager.serializeCoinbasePayload { data with minerData }) := by
  refine ⟨?_, ?_, deserialize_ne_panic, ?_⟩
  · intro data hscript
    have hwritten := serialize_eq_ok.mpr ⟨hscript, rfl⟩
    exact ⟨_, hwritten, fun hmax => deserialize_eq_ok.mpr ⟨hmax, hwritten⟩⟩
  · intro payload data hdecode
    exact (deserialize_eq_ok.mp hdecode).2
  · intro data payload minerData hpayload
    obtain ⟨_, rfl⟩ := serialize_eq_ok.mp hpayload
    have hkept : (encode lengthOfBlueScore data.blueScore.toNat ++
        encode lengthOfSubsidy data.subsidy.toNat).length =
          lengthOfBlueScore + lengthOfSubsidy := by simp
    simp only [modifyCoinbasePayload, serializeCoinbasePayload, List.take_left' hkept]

end CoinbaseManager

end Qaspa.Coinbase
