import Qaspa.Lib.LittleEndian

/-! # Extended private keys

An extended private key is printed as the Base58Check text of its 78 bytes, and two keys are
compared field by field in constant time.
-/

namespace Qaspa.Wallet

open LittleEndian List

/-- Base58Check: the valid texts and the byte strings correspond to each other. -/
structure Base58Check where
  encode : List UInt8 → List Char
  decode : List Char → Option (List UInt8)
  decode_eq_some : ∀ text bytes, decode text = some bytes ↔ encode bytes = text

/-- Four characters, and the version that gives texts with these characters in front. -/
structure KeyPrefix where
  chars : List Char
  version : UInt32

def KeyPrefix.isPrivate (kind : KeyPrefix) : Bool :=
  kind.chars.drop 1 == ['p', 'r', 'v'] || kind.chars.drop 1 == ['t', 'r', 'v']

inductive Bip32Error where
  | bs58
  | decodeLength (found expected : Nat)
  | decodeIssue
  | decodeInvalidStr
  | invalidSecretKey

/-- Arrays of bytes are words with the first byte the lowest. -/
structure ExtendedKeyAttrs where
  depth : UInt8
  parentFingerprint : UInt32
  childNumber : UInt32
  chainCode : BitVec 256

structure ExtendedKey where
  kind : KeyPrefix
  attrs : ExtendedKeyAttrs
  keyBytes : List UInt8

def byteSize : Nat := 78

theorem decode_word (word : BitVec 256) : decode (encode 32 word.toNat) = word.toNat :=
  decode_encode word.isLt

/-- Texts of the version begin with the characters, which are letters. -/
structure KeyPrefix.Matches (kind : KeyPrefix) (base58 : Base58Check) : Prop where
  length : kind.chars.length = 4
  letters : kind.chars.all Char.isAlpha = true
  take_encode : ∀ bytes : List UInt8, bytes.length = byteSize →
    (encode 4 kind.version.toNat).reverse <+: bytes → kind.chars <+: base58.encode bytes

namespace ExtendedKey

def bytes (key : ExtendedKey) : List UInt8 :=
  (encode 4 key.kind.version.toNat).reverse ++ (encode 1 key.attrs.depth.toNat ++
    (encode 4 key.attrs.parentFingerprint.toNat ++
      ((encode 4 key.attrs.childNumber.toNat).reverse ++
      (encode 32 key.attrs.chainCode.toNat ++ key.keyBytes))))

/-- The buffer for the text has room for every text of 78 bytes. -/
def writeBase58 (base58 : Base58Check) (key : ExtendedKey) : List Char :=
  base58.encode key.bytes

def fromStr (base58 : Base58Check) (text : List Char) : Except Bip32Error ExtendedKey :=
  match base58.decode text with
  | none => .error .bs58
  | some bytes =>
    -- The buffer has room for the checksum and no more.
    if bytes.length > byteSize then .error .bs58
    else if bytes.length ≠ byteSize then .error (.decodeLength bytes.length byteSize)
    else if text.length < 4 then .error .decodeIssue
    else if !(text.take 4).all Char.isAlpha then .error .decodeInvalidStr
    else
      .ok {
        kind := ⟨text.take 4, UInt32.ofNat (decode (bytes.extract 0 4).reverse)⟩
        attrs := {
          depth := UInt8.ofNat (decode (bytes.extract 4 5))
          parentFingerprint := UInt32.ofNat (decode (bytes.extract 5 9))
          childNumber := UInt32.ofNat (decode (bytes.extract 9 13).reverse)
          chainCode := BitVec.ofNat 256 (decode (bytes.extract 13 45)) }
        keyBytes := bytes.extract 45 78 }

theorem fromStr_writeBase58 {base58 : Base58Check} {key : ExtendedKey}
    (hlength : key.keyBytes.length = 33) (hkind : key.kind.Matches base58) :
    fromStr base58 (key.writeBase58 base58) = .ok key := by
  have hbytes : key.bytes.length = byteSize := by simp [bytes, byteSize, hlength]
  have hdecode : base58.decode (key.writeBase58 base58) = some key.bytes :=
    (base58.decode_eq_some _ _).2 rfl
  obtain ⟨rest, htext⟩ := hkind.take_encode key.bytes hbytes (prefix_append _ _)
  have htake : (key.writeBase58 base58).take 4 = key.kind.chars := by
    rw [writeBase58, ← htext, ← hkind.length, take_left]
  have hlen : ¬(key.writeBase58 base58).length < 4 := by
    rw [writeBase58, ← htext, length_append, hkind.length]
    omega
  rw [fromStr, hdecode]
  simp only [hbytes, htake, hlen, hkind.letters]
  simp [bytes, drop_append, drop_of_length_le, take_of_length_le, hlength,
    decode_word]
  simp [decode_encode_mod]

end ExtendedKey

/-- The order of the curve. -/
def curveOrder : Nat := 0xFFFFFFFFFFFFFFFFFFFFFFFFFFFFFFFEBAAEDCE6AF48A03BBFD25E8CD0364141

/-- The bytes that the secp256k1 crate accepts as a secret key. -/
def isSecretKey (bytes : BitVec 256) : Bool :=
  let value := decode (encode 32 bytes.toNat).reverse
  0 < value && value < curveOrder

structure SecretKey where
  bytes : BitVec 256
  valid : isSecretKey bytes = true

def SecretKey.fromBytes (bytes : BitVec 256) : Except Bip32Error SecretKey :=
  if valid : isSecretKey bytes = true then .ok ⟨bytes, valid⟩ else .error .invalidSecretKey

structure ExtendedPrivateKey where
  privateKey : SecretKey
  attrs : ExtendedKeyAttrs

namespace ExtendedPrivateKey

def toBytes (self : ExtendedPrivateKey) : BitVec 256 := self.privateKey.bytes

def toExtendedKey (self : ExtendedPrivateKey) (kind : KeyPrefix) : ExtendedKey :=
  ⟨kind, self.attrs, 0 :: encode 32 self.toBytes.toNat⟩

def toText (base58 : Base58Check) (self : ExtendedPrivateKey) (kind : KeyPrefix) : List Char :=
  (self.toExtendedKey kind).writeBase58 base58

/-- Both sides of the first comparison are the own secret. -/
def ctEq (self other : ExtendedPrivateKey) : Bool :=
  let keyA := self.toBytes
  let keyB := self.toBytes
  keyA == keyB && self.attrs.depth == other.attrs.depth &&
    self.attrs.parentFingerprint == other.attrs.parentFingerprint &&
    self.attrs.childNumber == other.attrs.childNumber &&
    self.attrs.chainCode == other.attrs.chainCode

def tryFrom (key : ExtendedKey) : Except Bip32Error ExtendedPrivateKey :=
  if key.kind.isPrivate && key.keyBytes.head? == some 0 then do
    return ⟨← SecretKey.fromBytes (BitVec.ofNat 256 (decode (key.keyBytes.drop 1))), key.attrs⟩
  else .error .invalidSecretKey

def fromStr (base58 : Base58Check) (text : List Char) : Except Bip32Error ExtendedPrivateKey := do
  tryFrom (← ExtendedKey.fromStr base58 text)

variable {base58 : Base58Check} {kind : KeyPrefix} {key key' : ExtendedPrivateKey}

theorem ctEq_iff : key.ctEq key' = true ↔ key.attrs = key'.attrs := by
  obtain ⟨_, attrs⟩ := key
  obtain ⟨_, attrs'⟩ := key'
  cases attrs
  cases attrs'
  simp [ctEq, and_assoc]

theorem fromStr_toText (key : ExtendedPrivateKey) (hprivate : kind.isPrivate = true)
    (hkind : kind.Matches base58) : fromStr base58 (key.toText base58 kind) = .ok key := by
  have hparse : ExtendedKey.fromStr base58 (key.toText base58 kind) =
      .ok (key.toExtendedKey kind) :=
    ExtendedKey.fromStr_writeBase58 (by simp [toExtendedKey]) hkind
  have hvalid : isSecretKey key.toBytes = true := key.privateKey.valid
  rw [fromStr, hparse]
  change tryFrom _ = _
  simp [tryFrom, toExtendedKey, hprivate, SecretKey.fromBytes, decode_word, hvalid]
  rfl

/-- Parsing the text of a key gives the key back. Two keys compare equal exactly when their texts
are equal, if and only if they have one secret or different attributes. -/
theorem extendedPrivateKey_text (hprivate : kind.isPrivate = true) (hkind : kind.Matches base58) :
    (∀ key : ExtendedPrivateKey, fromStr base58 (key.toText base58 kind) = .ok key) ∧
      ∀ key key' : ExtendedPrivateKey,
        (key.ctEq key' = true ↔ key.toText base58 kind = key'.toText base58 kind) ↔
          key.privateKey = key'.privateKey ∨ key.attrs ≠ key'.attrs := by
  have hparse (key : ExtendedPrivateKey) := fromStr_toText key hprivate hkind
  refine ⟨hparse, fun key key' => ?_⟩
  have hinj : key.toText base58 kind = key'.toText base58 kind ↔ key = key' :=
    ⟨fun h => Except.ok.inj (by rw [← hparse key, h, hparse key']), fun h => h ▸ rfl⟩
  rw [hinj, ctEq_iff, ExtendedPrivateKey.mk.injEq]
  tauto

/-- The characters `kprv`, and after them one character for each byte. -/
def plainText : Base58Check where
  encode bytes := ['k', 'p', 'r', 'v'] ++ bytes.map Char.ofUInt8
  decode text := (some ((text.drop 4).map Char.toUInt8)).filter fun bytes =>
    ['k', 'p', 'r', 'v'] ++ bytes.map Char.ofUInt8 = text
  decode_eq_some text bytes := by
    simp only [Option.filter_eq_some_iff, Option.some.injEq, decide_eq_true_eq]
    refine and_iff_right_of_imp ?_
    rintro rfl
    change (bytes.map Char.ofUInt8).map Char.toUInt8 = bytes
    rw [List.map_map]
    exact List.map_id'' UInt8.toUInt8_toUInt32 bytes

def kprv : KeyPrefix := ⟨['k', 'p', 'r', 'v'], 0x038f2ef4⟩

theorem kprv_matches : kprv.Matches plainText :=
  ⟨rfl, by decide, fun bytes _ _ => prefix_append _ _⟩

def masterKey : ExtendedPrivateKey := ⟨⟨1, by decide⟩, ⟨0, 0, 0, 0⟩⟩

theorem extendedPrivateKey_text_kprv :
    fromStr plainText (masterKey.toText plainText kprv) = .ok masterKey ∧
      (masterKey.ctEq ⟨masterKey.privateKey, ⟨1, 0, 0, 0⟩⟩ = true ↔
        masterKey.toText plainText kprv =
          toText plainText ⟨masterKey.privateKey, ⟨1, 0, 0, 0⟩⟩ kprv) :=
  have htext := extendedPrivateKey_text rfl kprv_matches
  ⟨htext.1 _, (htext.2 _ _).mpr (.inl rfl)⟩

/-- The comparison does not see that the secrets differ. -/
theorem ctEq_of_different_secrets :
    masterKey.ctEq ⟨⟨2, by decide⟩, masterKey.attrs⟩ = true ∧
      masterKey.toText plainText kprv ≠
        toText plainText ⟨⟨2, by decide⟩, masterKey.attrs⟩ kprv := by
  decide

end ExtendedPrivateKey

end Qaspa.Wallet
