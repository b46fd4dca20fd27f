import Qaspa.Lib.LittleEndian

/-! # Delimited encodings

An encoding is delimited if it can be told apart from whatever follows it: two encodings with
something behind them agree only if the values and what is behind them agree. Delimited encodings
are closed under concatenation, and a list of values is determined by their encodings one after
the other, without a count in front.
-/

namespace Qaspa

open List

variable {α β γ : Type}

/-- Encodings of valid values can be cancelled from the left. -/
def Delimited (valid : α → Prop) (encode : α → List β) : Prop :=
  ∀ value value' rest rest', valid value → valid value' →
    encode value ++ rest = encode value' ++ rest' → value = value' ∧ rest = rest'

section Delimited

variable {valid : α → Prop} {encode : α → List β} {valid' : γ → Prop} {encode' : γ → List β}

section

variable (hencode : Delimited valid encode)

include hencode

theorem Delimited.injective {value value' : α} (hvalue : valid value) (hvalue' : valid value')
    (heq : encode value = encode value') : value = value' :=
  (hencode value value' [] [] hvalue hvalue' (by rw [heq])).1

/-- A record of two fields, encoded one after the other. -/
theorem Delimited.record {δ : Type} {P : δ → Prop} (hencode' : Delimited valid' encode')
    (first : δ → α) (second : δ → γ)
    (hvalid : ∀ value, P value → valid (first value) ∧ valid' (second value))
    (hfields : ∀ value value', first value = first value' → second value = second value' →
      value = value') :
    Delimited P fun value => encode (first value) ++ encode' (second value) := by
  intro value value' rest rest' hvalue hvalue' heq
  rw [append_assoc, append_assoc] at heq
  obtain ⟨hfirst, htail⟩ := hencode _ _ _ _ (hvalid value hvalue).1 (hvalid value' hvalue').1 heq
  obtain ⟨hsecond, hrest⟩ :=
    hencode' _ _ _ _ (hvalid value hvalue).2 (hvalid value' hvalue').2 htail
  exact ⟨hfields value value' hfirst hsecond, hrest⟩

/-- The encodings of a list of values determine the list. -/
theorem Delimited.flatMap_injective (hne : ∀ value, encode value ≠ []) {values values' : List α}
    (hvalues : ∀ value ∈ values, valid value) (hvalues' : ∀ value ∈ values', valid value)
    (heq : values.flatMap encode = values'.flatMap encode) : values = values' := by
  induction values generalizing values' with
  | nil =>
    cases values' with
    | nil => rfl
    | cons value' rest' =>
      exact absurd (append_eq_nil_iff.mp heq.symm).1 (hne value')
  | cons value rest ih =>
    cases values' with
    | nil =>
      exact absurd (append_eq_nil_iff.mp heq).1 (hne value)
    | cons value' rest' =>
      obtain ⟨hvalue, hrest⟩ := forall_mem_cons.mp hvalues
      obtain ⟨hvalue', hrest'⟩ := forall_mem_cons.mp hvalues'
      obtain ⟨rfl, htail⟩ := hencode _ _ _ _ hvalue hvalue' heq
      rw [ih hrest hrest' htail]

end

end Delimited

namespace LittleEndian

theorem encode_delimited (width : Nat) : Delimited (· < 256 ^ width) (encode width) := by
  intro value value' rest rest' hvalue hvalue' heq
  obtain ⟨hencode, hrest⟩ := append_inj heq (by rw [encode_length, encode_length])
  exact ⟨by rw [← decode_encode hvalue, hencode, decode_encode hvalue'], hrest⟩

/-- Values of a fixed number of bytes. -/
theorem encode_delimited_of_lt {width : Nat} {toNat : α → Nat}
    (hlt : ∀ value, toNat value < 256 ^ width)
    (hinjective : ∀ value value', toNat value = toNat value' → value = value') :
    Delimited (fun _ => True) fun value => encode width (toNat value) := by
  intro value value' rest rest' _ _ heq
  obtain ⟨hnat, hrest⟩ := encode_delimited width _ _ rest rest' (hlt value) (hlt value') heq
  exact ⟨hinjective value value' hnat, hrest⟩

/-- Bytes behind their number. -/
def encodeBytes (width : Nat) (bytes : List UInt8) : List UInt8 :=
  encode width bytes.length ++ bytes

theorem encodeBytes_delimited (width : Nat) :
    Delimited (fun bytes => bytes.length < 256 ^ width) (encodeBytes width) := by
  intro bytes bytes' rest rest' hbytes hbytes' heq
  rw [encodeBytes, encodeBytes, append_assoc, append_assoc] at heq
  obtain ⟨hlength, htail⟩ := encode_delimited width _ _ _ _ hbytes hbytes' heq
  exact append_inj htail hlength

/-- Values behind their number. -/
def encodeList (width : Nat) (encode' : α → List UInt8) (values : List α) : List UInt8 :=
  encode width values.length ++ values.flatMap encode'

theorem encodeList_delimited (width : Nat) {valid : α → Prop} {encode' : α → List UInt8}
    (hencode : Delimited valid encode') :
    Delimited (fun values => values.length < 256 ^ width ∧ ∀ value ∈ values, valid value)
      (encodeList width encode') := by
  intro values values' rest rest' ⟨hcount, hvalues⟩ ⟨hcount', hvalues'⟩ heq
  rw [encodeList, encodeList, append_assoc, append_assoc] at heq
  obtain ⟨hlength, htail⟩ := encode_delimited width _ _ _ _ hcount hcount' heq
  clear hcount hcount' heq
  induction values generalizing values' with
  | nil =>
    cases length_eq_zero_iff.mp hlength.symm
    exact ⟨rfl, htail⟩
  | cons value values ih =>
    cases values' with
    | nil => cases hlength
    | cons value' values' =>
      rw [flatMap_cons, flatMap_cons, append_assoc, append_assoc] at htail
      obtain ⟨hvalue, hrest⟩ := forall_mem_cons.mp hvalues
      obtain ⟨hvalue', hrest'⟩ := forall_mem_cons.mp hvalues'
      obtain ⟨rfl, hbehind⟩ := hencode _ _ _ _ hvalue hvalue' htail
      obtain ⟨rfl, hrest⟩ := ih values' hrest hrest' (Nat.succ.inj hlength) hbehind
      exact ⟨rfl, hrest⟩

end LittleEndian

end Qaspa
