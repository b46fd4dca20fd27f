import Qaspa.Script.Execution

/-! # Data pushes

The builder encodes a data item by the shortest opcode that pushes it. The engine accepts no
other opcode for it, so a signature script, which may only push data, is determined by the items
it leaves on the stack. The two meet in the canonical opcode of a data item.
-/

namespace Qaspa.Script

open Outcome Codes LittleEndian List Nat OpCode

/-! ## The builder -/

inductive ScriptBuilderError where
  | dataRejected (size : Nat)
  | elementExceedsMaxSize (size : Nat)
  deriving DecidableEq, Repr

/-- The number of bytes that the encoding of a data item is taken to have. A single zero byte
counts one although its encoding has two. -/
def canonicalDataSize (data : List UInt8) : Nat :=
  if data.isEmpty || data.length == 1 && data.all fun byte =>
      byte ≤ opSmallIntMaxVal || byte == op1NegateVal then 1
  else
    data.length +
      if data.length ≤ opDataMaxVal.toNat then 1
      else if data.length ≤ 0xff then 2
      else if data.length ≤ 0xffff then 3
      else 5

/-- The opcode in front of data that no opcode pushes by itself. -/
def dataHeader (length : Nat) : List UInt8 :=
  if length ≤ opDataMaxVal.toNat then [opDataMinVal - 1 + UInt8.ofNat length]
  else if length ≤ 0xff then [opPushData1, UInt8.ofNat length]
  else if length ≤ 0xffff then opPushData2 :: encode 2 length
  else opPushData4 :: encode 4 length

def addRawData (script data : List UInt8) : List UInt8 :=
  match data with
  | [] => script ++ [opFalse]
  | [byte] =>
    if opSmallIntMinVal ≤ byte ∧ byte ≤ opSmallIntMaxVal then script ++ [opTrue - 1 + byte]
    else if byte = op1NegateVal then script ++ [op1Negate]
    else script ++ dataHeader 1 ++ [byte]
  | data => script ++ dataHeader data.length ++ data

def addData (script data : List UInt8) : Except ScriptBuilderError (List UInt8) :=
  let dataSize := canonicalDataSize data
  if maxScriptsSize < script.length + dataSize then .error (.dataRejected dataSize)
  else if maxScriptElementSize < data.length then .error (.elementExceedsMaxSize data.length)
  else .ok (addRawData script data)

/-- The script that pushes the items of a list. -/
def buildPushes (items : Stack) : Except ScriptBuilderError (List UInt8) := items.foldlM addData []

/-! ## Canonical opcodes -/

namespace OpCode

def serialize (opcode : OpCode) : List UInt8 :=
  match lengthOf opcode.code with
  | .fixed _ => opcode.code :: opcode.data
  | .prefixed width => opcode.code :: encode width opcode.data.length ++ opcode.data

/-- The data of an opcode has the length that its code asks for. -/
def WellFormed (opcode : OpCode) : Prop :=
  match lengthOf opcode.code with
  | .fixed length => opcode.data.length = length - 1
  | .prefixed width => opcode.data.length < 256 ^ width

/-- The item that a push opcode leaves on the stack. -/
def pushedItem (opcode : OpCode) : List UInt8 :=
  if opcode.code ≤ opPushData4 then opcode.data
  else if opcode.code = op1Negate then [op1NegateVal]
  else [opcode.code - opReserved]

end OpCode

/-- The opcode with a data item as its data. -/
def dataOpcode (data : List UInt8) : OpCode :=
  if data.length ≤ opDataMaxVal.toNat then ⟨UInt8.ofNat data.length, data⟩
  else if data.length ≤ 0xff then ⟨opPushData1, data⟩
  else if data.length ≤ 0xffff then ⟨opPushData2, data⟩
  else ⟨opPushData4, data⟩

/-- The shortest opcode that pushes a data item. -/
def pushOpcode (data : List UInt8) : OpCode :=
  match data with
  | [] => ⟨opFalse, []⟩
  | [byte] =>
    if opSmallIntMinVal ≤ byte ∧ byte ≤ opSmallIntMaxVal then ⟨opTrue - 1 + byte, []⟩
    else if byte = op1NegateVal then ⟨op1Negate, []⟩
    else dataOpcode [byte]
  | data => dataOpcode data

section Parsing

variable {opcode : OpCode} {code : UInt8} {bytes rest data : List UInt8}

/-- What was read is well formed, and writing it again gives the bytes that were read. -/
theorem serialize_of_deserialize (hread : (deserialize code bytes).1 = .ok opcode) :
    opcode.WellFormed ∧ opcode.serialize ++ (deserialize code bytes).2 = code :: bytes := by
  unfold deserialize at hread ⊢
  cases hlength : lengthOf code with
  | fixed length =>
    simp only [hlength] at hread ⊢
    split at hread
    · cases hread
    next htake =>
      cases hread
      simp only [OpCode.WellFormed, serialize, hlength]
      exact ⟨not_not.mp htake, by simp⟩
  | prefixed width =>
    simp only [hlength] at hread ⊢
    split at hread
    next hsize =>
      simp only [if_pos hsize] at hread ⊢
      split at hread
      · cases hread
      next hdata =>
        cases hread
        have hdata := not_not.mp hdata
        simp only [OpCode.WellFormed, serialize, hlength]
        have hlt := decode_lt (bytes.take width)
        rw [hsize] at hlt
        refine ⟨hdata.trans_lt hlt, ?_⟩
        rw [hdata, encode_decode_of_length hsize, cons_append, cons_append,
          append_assoc, take_append_drop, take_append_drop]
    · cases hread

/-- A well-formed opcode is read back, whatever follows it. -/
theorem deserialize_serialize (hopcode : opcode.WellFormed) (rest : List UInt8) :
    ∃ bytes, opcode.serialize ++ rest = opcode.code :: bytes ∧
      deserialize opcode.code bytes = (.ok opcode, rest) := by
  unfold OpCode.WellFormed at hopcode
  unfold serialize deserialize
  cases hlength : lengthOf opcode.code with
  | fixed length =>
    simp only [hlength] at hopcode ⊢
    refine ⟨opcode.data ++ rest, rfl, ?_⟩
    rw [take_left' hopcode, drop_left' hopcode, if_neg (not_not.mpr hopcode)]
  | prefixed width =>
    simp only [hlength] at hopcode ⊢
    refine ⟨encode width opcode.data.length ++ (opcode.data ++ rest), by simp, ?_⟩
    have hwidth := encode_length width opcode.data.length
    rw [take_left' hwidth, drop_left' hwidth, if_pos hwidth,
      decode_encode hopcode, take_left, drop_left, if_neg (not_not.mpr rfl)]

theorem parseScript_serialize (hopcode : opcode.WellFormed) (rest : List UInt8) :
    parseScript (opcode.serialize ++ rest) = .ok opcode :: parseScript rest := by
  obtain ⟨bytes, hbytes, hread⟩ := deserialize_serialize hopcode rest
  rw [hbytes, parseScript_cons, hread]

end Parsing

/-! ## Canonical opcodes are what the builder writes -/

section Canonical

variable {opcode : OpCode} {data : List UInt8} {script : List UInt8}

/-- The codes whose data is the item they push. -/
def IsDataCode (code : UInt8) : Prop := 0 < code ∧ code ≤ opPushData4

instance (code : UInt8) : Decidable (IsDataCode code) := inferInstanceAs (Decidable (_ ∧ _))

/-- The codes up to `OpData75` are followed by as much data as they say. -/
theorem data_code {length : Nat} (hlength : length ≤ opDataMaxVal.toNat) :
    lengthOf (UInt8.ofNat length) = .fixed (length + 1) ∧
      opDataMinVal - 1 + UInt8.ofNat length = UInt8.ofNat length ∧
      (0 < length → IsDataCode (UInt8.ofNat length)) := by
  have hall : ∀ n ≤ 75, lengthOf (UInt8.ofNat n) = .fixed (n + 1) ∧
      opDataMinVal - 1 + UInt8.ofNat n = UInt8.ofNat n ∧ (0 < n → IsDataCode (UInt8.ofNat n)) := by
    decide +kernel
  exact hall length hlength

/-- The opcodes for single bytes between one and sixteen. -/
theorem smallInt_byte : ∀ byte : UInt8, opSmallIntMinVal ≤ byte ∧ byte ≤ opSmallIntMaxVal →
    lengthOf (opTrue - 1 + byte) = .fixed 1 ∧ opTrue - 1 + byte ≤ noCostOpcode ∧
      ¬ opTrue + byte - 1 ≤ opPushData4 ∧
      ¬ IsDataCode (opTrue - 1 + byte) ∧ opTrue - 1 + byte ≠ opReserved ∧
      (⟨opTrue - 1 + byte, []⟩ : OpCode).pushedItem = [byte] :=
  forall_code (by decide +kernel)

/-- A single byte takes one or two bytes, and no less than it is taken to have. -/
theorem length_addRawData_byte : ∀ byte : UInt8,
    canonicalDataSize [byte] ≤ (addRawData [] [byte]).length ∧ (addRawData [] [byte]).length ≤ 2 :=
  forall_code (by decide +kernel)

/-- Data behind a header of its length. -/
theorem serialize_dataOpcode (hlength : data.length < 256 ^ 4) :
    (dataOpcode data).WellFormed ∧
      (dataOpcode data).serialize = dataHeader data.length ++ data := by
  by_cases hshort : data.length ≤ opDataMaxVal.toNat
  · obtain ⟨hfixed, hcode, _⟩ := data_code hshort
    rw [dataOpcode, dataHeader, if_pos hshort, if_pos hshort, hcode]
    simp [OpCode.WellFormed, serialize, hfixed]
  · rw [dataOpcode, dataHeader, if_neg hshort, if_neg hshort]
    by_cases hbyte : data.length ≤ 0xff
    · rw [if_pos hbyte, if_pos hbyte]
      exact ⟨show data.length < 256 ^ 1 by omega, rfl⟩
    · rw [if_neg hbyte, if_neg hbyte]
      by_cases hword : data.length ≤ 0xffff
      · rw [if_pos hword, if_pos hword]
        exact ⟨show data.length < 256 ^ 2 by omega, rfl⟩
      · rw [if_neg hword, if_neg hword]
        exact ⟨hlength, rfl⟩

/-- Every single byte has a canonical opcode that is written in one or two bytes. -/
theorem serialize_pushOpcode_byte (byte : UInt8) :
    (pushOpcode [byte]).WellFormed ∧ (pushOpcode [byte]).serialize = addRawData [] [byte] := by
  simp only [pushOpcode, addRawData]
  by_cases hsmall : opSmallIntMinVal ≤ byte ∧ byte ≤ opSmallIntMaxVal
  · obtain ⟨hlength, _⟩ := smallInt_byte byte hsmall
    rw [if_pos hsmall, if_pos hsmall]
    simp [OpCode.WellFormed, serialize, hlength]
  · rw [if_neg hsmall, if_neg hsmall]
    by_cases hnegate : byte = op1NegateVal
    · rw [if_pos hnegate, if_pos hnegate]
      exact ⟨rfl, rfl⟩
    · rw [if_neg hnegate, if_neg hnegate]
      exact serialize_dataOpcode (le_of_ble_eq_true rfl : 1 < 256 ^ 4)

/-- What the builder appends for a data item is its canonical opcode. -/
theorem serialize_pushOpcode (hlength : data.length < 256 ^ 4) :
    (pushOpcode data).WellFormed ∧ (pushOpcode data).serialize = addRawData [] data := by
  match data with
  | [] => exact ⟨rfl, rfl⟩
  | [byte] => exact serialize_pushOpcode_byte byte
  | first :: second :: rest => exact serialize_dataOpcode hlength

theorem canonicalDataSize_le (data : List UInt8) :
    canonicalDataSize data ≤ (addRawData [] data).length := by
  match data with
  | [] => exact le_refl 1
  | [byte] => exact (length_addRawData_byte byte).1
  | first :: second :: rest =>
    have hraw : addRawData [] (first :: second :: rest) =
        dataHeader (rest.length + 2) ++ (first :: second :: rest) := rfl
    have hcanonical : canonicalDataSize (first :: second :: rest) = rest.length + 2 +
        if rest.length + 2 ≤ opDataMaxVal.toNat then 1 else if rest.length + 2 ≤ 0xff then 2
        else if rest.length + 2 ≤ 0xffff then 3 else 5 := rfl
    rw [hraw, hcanonical, length_append, dataHeader, add_comm]
    split_ifs <;> exact le_refl _

theorem addRawData_append (script data : List UInt8) :
    addRawData script data = script ++ addRawData [] data := by
  unfold addRawData
  split
  · rfl
  · split_ifs
    · rfl
    · rfl
    · rw [append_assoc, nil_append]
  · rw [append_assoc, nil_append]

theorem addData_of_le (hlength : data.length ≤ maxScriptElementSize)
    (hfits : script.length + (addRawData [] data).length ≤ maxScriptsSize) :
    addData script data = .ok (script ++ addRawData [] data) := by
  have hsize := canonicalDataSize_le data
  rw [addData, if_neg (by omega), if_neg (by omega), addRawData_append]

/-- The builder writes the encodings of the items one after the other. -/
theorem foldlM_addData {items : Stack} (hitems : ∀ item ∈ items, item.length ≤ maxScriptElementSize)
    (hfits : (script ++ items.flatMap (addRawData [])).length ≤ maxScriptsSize) :
    items.foldlM addData script = .ok (script ++ items.flatMap (addRawData [])) := by
  induction items generalizing script with
  | nil => rw [flatMap_nil, append_nil, foldlM_nil, pure_eq_ok]
  | cons item items ih =>
    obtain ⟨hitem, hitems⟩ := forall_mem_cons.mp hitems
    rw [flatMap_cons, ← append_assoc] at hfits ⊢
    have hfirst : script.length + (addRawData [] item).length ≤ maxScriptsSize := by
      simp only [length_append] at hfits
      omega
    rw [foldlM_cons, addData_of_le hitem hfirst, ok_bind, ih hitems hfits]

theorem length_addRawData_le (hlength : data.length ≤ maxScriptElementSize) :
    (addRawData [] data).length ≤ maxScriptsSize := by
  have hheader : ∀ length, (dataHeader length).length ≤ 5 := by
    intro length
    unfold dataHeader
    split_ifs <;> simp [encode_length]
  match data with
  | [] => exact le_of_ble_eq_true rfl
  | [byte] => exact (length_addRawData_byte byte).2.trans (by decide)
  | first :: second :: rest =>
    have hlimit : maxScriptElementSize + 5 ≤ maxScriptsSize := by decide
    have hraw : addRawData [] (first :: second :: rest) =
        dataHeader (rest.length + 2) ++ (first :: second :: rest) := rfl
    have hsize : (first :: second :: rest).length = rest.length + 2 := rfl
    rw [hraw, length_append, hsize]
    have hshort := hheader (rest.length + 2)
    omega

/-- Each item encoded by a builder of its own. -/
theorem mapM_addData {items : Stack} (hitems : ∀ item ∈ items, item.length ≤ maxScriptElementSize) :
    items.mapM (addData []) = .ok (items.map (addRawData [])) := by
  induction items with
  | nil => rfl
  | cons item items ih =>
    obtain ⟨hitem, hitems⟩ := forall_mem_cons.mp hitems
    have hfits := length_addRawData_le hitem
    rw [mapM_cons, addData_of_le hitem (by simpa using hfits), ih hitems]
    rfl

end Canonical

/-! ## Canonical opcodes are what the engine accepts -/

section Accepted

variable {opcode : OpCode} {data : List UInt8}

/-- The check on the length of the data leaves one opcode. -/
theorem checkDataLength_eq_ok (hlength : data.length < 0xffff) {code : UInt8} :
    (⟨code, data⟩ : OpCode).checkDataLength = .ok () ↔
    (⟨code, data⟩ : OpCode) = dataOpcode data := by
  have hcode : ∀ {n : Nat}, n ≤ 75 → (code.toNat = n ↔ code = UInt8.ofNat n) := by
    intro n hn
    rw [← UInt8.toNat_inj, UInt8.toNat_ofNat_of_lt' (by omega : n < 256)]
  by_cases hshort : data.length ≤ opDataMaxVal.toNat
  · have hcheck : (⟨code, data⟩ : OpCode).checkDataLength =
        if code.toNat ≠ data.length then fail _ else .ok () := if_pos hshort
    rw [hcheck, dataOpcode, if_pos hshort, mk.injEq, ← hcode hshort]
    by_cases heq : code.toNat = data.length
    · simp [heq]
    · simp [heq, fail]
  · by_cases hbyte : data.length ≤ 0xff
    · have hcheck : (⟨code, data⟩ : OpCode).checkDataLength =
          if code ≠ opPushData1 then fail _ else .ok () :=
        (if_neg hshort).trans (if_pos hbyte)
      rw [hcheck, dataOpcode, if_neg hshort, if_pos hbyte]
      by_cases heq : code = opPushData1
      · simp [heq]
      · simp [heq, fail]
    · have hcheck : (⟨code, data⟩ : OpCode).checkDataLength =
          if data.length < 0xffff ∧ code ≠ opPushData2 then fail _ else .ok () :=
        (if_neg hshort).trans (if_neg hbyte)
      rw [hcheck, dataOpcode, if_neg hshort, if_neg hbyte,
        if_pos (le_of_lt hlength)]
      by_cases heq : code = opPushData2
      · simp [heq]
      · simp [heq, fail, hlength]

/-- Among the opcodes with data, the check on minimal pushes accepts the canonical ones. -/
theorem checkMinimalDataPush_eq_ok (hlength : data.length < 0xffff) {code : UInt8}
    (hcode : IsDataCode code) :
    (⟨code, data⟩ : OpCode).checkMinimalDataPush = .ok () ↔
      (⟨code, data⟩ : OpCode) = pushOpcode data := by
  match data with
  | [] =>
    have hne : code ≠ opFalse := by
      rintro rfl
      exact absurd hcode.1 (by decide)
    simp [checkMinimalDataPush, pushOpcode, hne, fail]
  | [byte] =>
    simp only [checkMinimalDataPush, pushOpcode]
    by_cases hbyte : opSmallIntMinVal ≤ byte ∧ byte ≤ opSmallIntMaxVal
    · have hne : code ≠ opTrue + byte - 1 := by
        rintro rfl
        exact (smallInt_byte byte hbyte).2.2.1 hcode.2
      simp [hbyte, hne, fail]
    · rw [if_neg hbyte, if_neg hbyte]
      by_cases hnegate : byte = op1NegateVal
      · have hne : code ≠ op1Negate := by
          rintro rfl
          exact absurd hcode.2 (by decide)
        simp [hnegate, hne, fail]
      · rw [if_neg hnegate, if_neg hnegate]
        exact checkDataLength_eq_ok hlength
  | first :: second :: rest => exact checkDataLength_eq_ok hlength

/-- The number that a code above the data codes pushes. -/
def pushedNumber (code : UInt8) : Int :=
  if code = op1Negate then -1 else code.toNat - opReserved.toNat

/-- The codes without data that push an item are the canonical opcodes of their items. Those
above the data codes push a number that is a single byte. -/
theorem number_code : ∀ code : UInt8,
    ¬ IsDataCode code ∧ code ≤ noCostOpcode ∧ code ≠ opReserved →
    (lengthOf code = .fixed 1 ∧ pushOpcode (⟨code, []⟩ : OpCode).pushedItem = ⟨code, []⟩) ∧
      (code = opFalse ∨ instructionOf code = .pushNumber (pushedNumber code) ∧
        serializeSized 8 (pushedNumber code) = .ok (⟨code, []⟩ : OpCode).pushedItem) :=
  forall_code (by decide +kernel)

/-- What the engine demands of a push opcode. -/
structure OpCode.Accepted (opcode : OpCode) : Prop where
  push : opcode.isPushOpcode = true
  short : opcode.len ≤ maxScriptElementSize
  minimal : IsDataCode opcode.code → opcode.checkMinimalDataPush = .ok ()
  not_reserved : opcode.code ≠ opReserved

/-- An accepted opcode is the canonical one of its item. -/
theorem OpCode.Accepted.eq_pushOpcode (haccepted : opcode.Accepted) (hopcode : opcode.WellFormed) :
    opcode = pushOpcode opcode.pushedItem := by
  obtain ⟨code, data⟩ := opcode
  by_cases hcode : IsDataCode code
  · have hitem : (⟨code, data⟩ : OpCode).pushedItem = data := if_pos hcode.2
    have hshort : data.length ≤ 2500 := haccepted.short
    rw [hitem]
    exact (checkMinimalDataPush_eq_ok (by omega) hcode).mp (haccepted.minimal hcode)
  · obtain ⟨⟨hlength, hcanonical⟩, _⟩ := number_code code
      ⟨hcode, of_decide_eq_true haccepted.push, haccepted.not_reserved⟩
    obtain rfl : data = [] := by
      simpa [OpCode.WellFormed, hlength] using hopcode
    exact hcanonical.symm

theorem isDataCode_dataOpcode (hne : data ≠ []) :
    ∃ code, dataOpcode data = ⟨code, data⟩ ∧ IsDataCode code := by
  have hpos : 0 < data.length := length_pos_iff.mpr hne
  unfold dataOpcode
  split_ifs with hshort
  · exact ⟨_, rfl, (data_code hshort).2.2 hpos⟩
  all_goals exact ⟨_, rfl, by decide⟩

/-- An opcode that carries its item as data is accepted if it is the canonical one. -/
theorem accepted_of_dataOpcode (hlength : data.length ≤ maxScriptElementSize) (hne : data ≠ [])
    (hcanonical : pushOpcode data = dataOpcode data) :
    (pushOpcode data).Accepted ∧ (pushOpcode data).pushedItem = data := by
  obtain ⟨code, hopcode, hcode⟩ := isDataCode_dataOpcode hne
  have hpush : code ≤ noCostOpcode := UInt8.le_trans hcode.2 (by decide)
  have hreserved : code ≠ opReserved := by
    rintro rfl
    exact absurd hcode.2 (by decide)
  have hlimit : data.length < 0xffff := lt_of_le_of_lt hlength (by decide)
  rw [hcanonical, hopcode]
  refine ⟨⟨decide_eq_true hpush, hlength, fun _ => ?_, hreserved⟩, if_pos hcode.2⟩
  rw [checkMinimalDataPush_eq_ok hlimit hcode, hcanonical, hopcode]

/-- The canonical opcode of an item is accepted and pushes the item. -/
theorem accepted_pushOpcode (hlength : data.length ≤ maxScriptElementSize) :
    (pushOpcode data).Accepted ∧ (pushOpcode data).pushedItem = data := by
  match data with
  | [] => exact ⟨⟨rfl, by decide, fun hcode => absurd hcode (by decide), by decide⟩, rfl⟩
  | [byte] =>
    by_cases hsmall : opSmallIntMinVal ≤ byte ∧ byte ≤ opSmallIntMaxVal
    · obtain ⟨_, hpush, _, hcode, hreserved, hitem⟩ := smallInt_byte byte hsmall
      have hopcode : pushOpcode [byte] = ⟨opTrue - 1 + byte, []⟩ := if_pos hsmall
      rw [hopcode]
      exact ⟨⟨decide_eq_true hpush, zero_le _, fun h => absurd h hcode, hreserved⟩, hitem⟩
    · by_cases hnegate : byte = op1NegateVal
      · subst hnegate
        exact ⟨⟨rfl, zero_le _, fun hcode => absurd hcode (by decide), by decide⟩, rfl⟩
      · exact accepted_of_dataOpcode hlength (cons_ne_nil _ _)
          ((if_neg hsmall).trans (if_neg hnegate))
  | first :: second :: rest => exact accepted_of_dataOpcode hlength (cons_ne_nil _ _) rfl

end Accepted

/-! ## Executing pushes -/

namespace TxScriptEngine

variable {crypto : Crypto} {source : ScriptSource} {vm vm' : TxScriptEngine} {opcode : OpCode}
  {verifyOnlyPush : Bool} {counter counter' : RuntimeSigOpCounter}

theorem execute_push (hopcode : opcode.WellFormed) (hpush : opcode.isPushOpcode = true)
    (hreserved : opcode.code ≠ opReserved) :
    execute crypto source opcode vm =
      call (.ok { vm with dstack := vm.dstack ++ [opcode.pushedItem] }) := by
  have hcode : opcode.code ≤ noCostOpcode := of_decide_eq_true hpush
  by_cases hdata : opcode.code ≤ opPushData4
  · have hitem : opcode.pushedItem = opcode.data := if_pos hdata
    by_cases hfalse : opcode.code = opFalse
    · have hempty : opcode.data = [] := by
        simpa [OpCode.WellFormed, hfalse, show lengthOf opFalse = .fixed 1 from rfl]
          using hopcode
      have hinstruction : opcode.instruction = .opFalse := if_pos hfalse
      rw [execute, hinstruction, hitem, hempty]
      rfl
    · have hinstruction : opcode.instruction = .pushData := (if_neg hfalse).trans (if_pos hdata)
      rw [execute, hinstruction, hitem]
      rfl
  · have hfalse : opcode.code ≠ opFalse := by
      intro hfalse
      rw [hfalse] at hdata
      exact hdata (by decide)
    obtain ⟨_, hnumber⟩ := number_code opcode.code ⟨fun h => hdata h.2, hcode, hreserved⟩
    obtain ⟨hinstruction, hserialize⟩ := hnumber.resolve_left hfalse
    have hitem : opcode.pushedItem = (⟨opcode.code, []⟩ : OpCode).pushedItem := by
      simp only [pushedItem, if_neg hdata]
    rw [execute, instruction, hinstruction]
    simp only [onDstack, pushLong, hserialize, hitem]
    rfl

/-- What an opcode of a push-only script does outside of conditionals. -/
def pushStep (vm : TxScriptEngine) (opcode : OpCode) : Outcome TxScriptError TxScriptEngine :=
  if maxScriptElementSize < opcode.len then fail (.elementTooBig opcode.len maxScriptElementSize)
  else (if IsDataCode opcode.code then opcode.checkMinimalDataPush else .ok ()) >>= fun _ =>
    if opcode.code = opReserved then fail (.opcodeReserved opcode.debug)
    else if maxStackSize < vm.astack.length + (vm.dstack.length + 1) then
      fail (.stackSizeExceeded (vm.astack.length + (vm.dstack.length + 1)) maxStackSize)
    else .ok { vm with dstack := vm.dstack ++ [opcode.pushedItem] }

theorem checkOpcode_push (hpush : opcode.isPushOpcode = true) :
    checkOpcode verifyOnlyPush opcode = .ok () := by
  have habove : ∀ codes : List UInt8, (codes.all fun code => noCostOpcode < code) = true →
      codes.contains opcode.code = false := by
    intro codes hcodes
    rw [contains_eq_mem, decide_eq_false_iff_not]
    intro hmem
    have hcode := of_decide_eq_true (all_eq_true.mp hcodes opcode.code hmem)
    exact UInt8.not_le.mpr hcode (of_decide_eq_true hpush)
  have hdisabled : opcode.isDisabled = false := habove _ rfl
  have hillegal : opcode.alwaysIllegal = false := habove _ rfl
  simp [checkOpcode, hdisabled, hillegal, hpush]

theorem step_push (hopcode : opcode.WellFormed) (hpush : opcode.isPushOpcode = true)
    (hexecuting : vm.isExecuting = true) :
    step crypto source verifyOnlyPush vm (.ok opcode) = call (pushStep vm opcode) := by
  have hparsed : (Except.ok opcode : Except TxScriptError OpCode).mapError Fault.err = .ok opcode :=
    rfl
  have hcounted : countOpcode opcode vm =
      if maxScriptElementSize < opcode.len then
        fail (.elementTooBig opcode.len maxScriptElementSize)
      else .ok vm := if_neg (not_not.mpr hpush)
  rw [step, hparsed, call_ok_bind, checkOpcode_push hpush, call_ok_bind, executeOpcode, hcounted,
    pushStep]
  by_cases hlong : maxScriptElementSize < opcode.len
  · rw [if_pos hlong, if_pos hlong]
    rfl
  · rw [if_neg hlong, if_neg hlong, call_ok_bind, if_pos (by rw [hexecuting, Bool.true_or])]
    have hcheck : (if 0 < opcode.value ∧ opcode.value ≤ 0x4e then opcode.checkMinimalDataPush
        else .ok ()) = if IsDataCode opcode.code then opcode.checkMinimalDataPush else .ok () := rfl
    rw [hcheck]
    cases if IsDataCode opcode.code then opcode.checkMinimalDataPush else .ok () with
    | error fault => rfl
    | ok checked =>
      rw [call_ok_bind]
      by_cases hreserved : opcode.code = opReserved
      · have hinstruction : opcode.instruction = .reserved := by
          rw [instruction, hreserved]
          rfl
        rw [execute, hinstruction, if_pos hreserved]
        rfl
      · rw [execute_push hopcode hpush hreserved, call_ok_bind]
        simp only [length_append, length_cons, length_nil]
        split
        · rfl
        · rfl

theorem pushStep_eq_ok (hpush : opcode.isPushOpcode = true) :
    pushStep vm opcode = .ok vm' ↔
      opcode.Accepted ∧ vm.astack.length + (vm.dstack.length + 1) ≤ maxStackSize ∧
        vm' = { vm with dstack := vm.dstack ++ [opcode.pushedItem] } := by
  have hminimal : (if IsDataCode opcode.code then opcode.checkMinimalDataPush else .ok ())
        = .ok () ↔
      (IsDataCode opcode.code → opcode.checkMinimalDataPush = .ok ()) := by
    by_cases hcode : IsDataCode opcode.code
    · simp [hcode]
    · simp [hcode]
  simp only [pushStep, fail, ite_error_eq_ok, check_bind_eq_ok, hminimal, not_lt,
    Except.ok.injEq]
  constructor
  · rintro ⟨hshort, hminimal, hreserved, hsize, rfl⟩
    exact ⟨⟨hpush, hshort, hminimal, hreserved⟩, hsize, rfl⟩
  · rintro ⟨haccepted, hsize, rfl⟩
    exact ⟨haccepted.short, haccepted.minimal, haccepted.not_reserved, hsize, rfl⟩

/-- A push-only script stops at any other opcode. -/
theorem step_not_push (crypto : Crypto) (source : ScriptSource) (vm : TxScriptEngine)
    (hpush : opcode.isPushOpcode = false) :
    ∃ error, step crypto source true vm (.ok opcode) = call (fail error) := by
  have hparsed : (Except.ok opcode : Except TxScriptError OpCode).mapError Fault.err = .ok opcode :=
    rfl
  have hcheck : ∃ error, checkOpcode true opcode = fail error := by
    unfold checkOpcode
    split
    · exact ⟨_, rfl⟩
    · split
      · exact ⟨_, rfl⟩
      · exact ⟨_, if_pos (by rw [hpush]; rfl)⟩
  obtain ⟨error, hcheck⟩ := hcheck
  refine ⟨error, ?_⟩
  rw [step, hparsed, call_ok_bind, hcheck]
  rfl

theorem length_pushedItem (haccepted : opcode.Accepted) :
    opcode.pushedItem.length ≤ maxScriptElementSize := by
  unfold pushedItem
  split_ifs
  · exact haccepted.short
  · exact le_of_ble_eq_true rfl
  · exact le_of_ble_eq_true rfl

/-- One opcode of a push-only script that succeeds: it was canonical. -/
theorem step_push_only (hopcode : opcode.WellFormed) (hexecuting : vm.isExecuting = true)
    (hstep : step crypto source true vm (.ok opcode) counter = (.ok vm', counter')) :
    opcode.serialize = addRawData [] opcode.pushedItem ∧
      opcode.pushedItem.length ≤ maxScriptElementSize ∧ counter' = counter ∧
      vm' = { vm with dstack := vm.dstack ++ [opcode.pushedItem] } := by
  cases hpush : opcode.isPushOpcode with
  | false =>
    obtain ⟨error, hfails⟩ := step_not_push crypto source vm hpush
    rw [hfails] at hstep
    cases hstep
  | true =>
    rw [step_push hopcode hpush hexecuting] at hstep
    obtain ⟨hresult, hcounter⟩ := Prod.mk.inj hstep
    obtain ⟨haccepted, _, hvm⟩ := (pushStep_eq_ok hpush).mp hresult
    have hitem := length_pushedItem haccepted
    have hlimit : opcode.pushedItem.length < 256 ^ 4 := lt_of_le_of_lt hitem (by decide)
    refine ⟨?_, hitem, hcounter.symm, hvm⟩
    rw [← (serialize_pushOpcode hlimit).2, ← haccepted.eq_pushOpcode hopcode]

section

variable (hexecuting : vm.isExecuting = true)

include hexecuting

/-- The items that a push-only script leaves determine the script. -/
theorem runOpcodes_push_only
    (hrun : runOpcodes crypto source true vm (parseScript script) counter = (.ok vm', counter')) :
    ∃ items : Stack, script = items.flatMap (addRawData []) ∧
      (∀ item ∈ items, item.length ≤ maxScriptElementSize) ∧
      vm' = { vm with dstack := vm.dstack ++ items } ∧ counter' = counter := by
  induction script using script_induction generalizing vm counter with
  | nil =>
    obtain ⟨rfl, rfl⟩ : vm = vm' ∧ counter = counter' := by
      simpa [runOpcodes, pure] using hrun
    exact ⟨[], rfl, by simp, by simp, rfl⟩
  | cons code bytes ih =>
    rw [parseScript_cons] at hrun
    obtain ⟨middle, counter'', hstep, hrest⟩ := Metered.bind_eq_ok.mp hrun
    cases hread : (deserialize code bytes).1 with
    | error error =>
      rw [hread] at hstep
      cases hstep
    | ok opcode =>
      rw [hread] at hstep
      obtain ⟨hopcode, hbytes⟩ := serialize_of_deserialize hread
      obtain ⟨hserialize, hitem, rfl, rfl⟩ := step_push_only hopcode hexecuting hstep
      obtain ⟨items, hscript, hitems, hvm, hcounter⟩ := ih (by exact hexecuting) hrest
      refine ⟨opcode.pushedItem :: items, ?_, ?_, ?_, hcounter⟩
      · rw [flatMap_cons, ← hserialize, ← hscript, hbytes]
      · exact forall_mem_cons.mpr ⟨hitem, hitems⟩
      · rw [hvm]
        simp

/-- The canonical opcode of an item pushes it if the stack has room. -/
theorem step_canonical {item : List UInt8} (hitem : item.length ≤ maxScriptElementSize) :
    step crypto source verifyOnlyPush vm (.ok (pushOpcode item)) =
      call (if maxStackSize < vm.astack.length + (vm.dstack.length + 1) then
        fail (.stackSizeExceeded (vm.astack.length + (vm.dstack.length + 1)) maxStackSize)
      else .ok { vm with dstack := vm.dstack ++ [item] }) := by
  have hlimit : item.length < 256 ^ 4 := lt_of_le_of_lt hitem (by decide)
  obtain ⟨haccepted, hpushed⟩ := accepted_pushOpcode hitem
  have hminimal : (if IsDataCode (pushOpcode item).code then (pushOpcode item).checkMinimalDataPush
      else .ok ()) = .ok () := by
    split
    next hcode => exact haccepted.minimal hcode
    · rfl
  rw [step_push (serialize_pushOpcode hlimit).1 haccepted.push hexecuting, pushStep,
    if_neg (not_lt.mpr haccepted.short), hminimal, ok_bind, if_neg haccepted.not_reserved, hpushed]

end

theorem executeScript_push_only {vm' : TxScriptEngine}
    (hrun : executeScript crypto source script true .new counter = (.ok vm', counter')) :
    script = vm'.dstack.flatMap (addRawData []) ∧
      (∀ item ∈ vm'.dstack, item.length ≤ maxScriptElementSize) ∧
      vm' = { TxScriptEngine.new with dstack := vm'.dstack } ∧ counter' = counter := by
  obtain ⟨last, counter'', hopcodes, hend⟩ := Metered.bind_eq_ok.mp hrun
  obtain ⟨items, hscript, hitems, rfl, rfl⟩ := runOpcodes_push_only rfl hopcodes
  obtain ⟨hvm, hcounter⟩ := Prod.mk.inj hend
  rw [← Except.ok.inj hvm]
  exact ⟨hscript, hitems, rfl, hcounter.symm⟩

section

variable {items : Stack} (hitems : ∀ item ∈ items, item.length ≤ maxScriptElementSize)

include hitems

/-- The encodings of a list of items are read as their canonical opcodes. -/
theorem parseScript_canonical :
    parseScript (items.flatMap (addRawData [])) = items.map fun item => .ok (pushOpcode item) := by
  induction items with
  | nil => rfl
  | cons item items ih =>
    obtain ⟨hitem, hitems⟩ := forall_mem_cons.mp hitems
    have hlimit : item.length < 256 ^ 4 := lt_of_le_of_lt hitem (by decide)
    obtain ⟨hopcode, hserialize⟩ := serialize_pushOpcode hlimit
    rw [flatMap_cons, ← hserialize, parseScript_serialize hopcode, ih hitems, map_cons]

/-- The canonical opcodes of a list of items leave the items, unless they exceed the size of the
stack. -/
theorem runOpcodes_canonical (hexecuting : vm.isExecuting = true)
    (hroom : vm.astack.length + vm.dstack.length ≤ maxStackSize) :
    runOpcodes crypto source verifyOnlyPush vm
      (items.map fun item => .ok (pushOpcode item)) counter =
      (if maxStackSize < vm.astack.length + vm.dstack.length + items.length then
        .error (.err (.stackSizeExceeded (maxStackSize + 1) maxStackSize))
      else .ok { vm with dstack := vm.dstack ++ items }, counter) := by
  induction items generalizing vm with
  | nil =>
    rw [length_nil, add_zero, if_neg (not_lt.mpr hroom), append_nil]
    rfl
  | cons item items ih =>
    obtain ⟨hitem, hitems⟩ := forall_mem_cons.mp hitems
    rw [map_cons, runOpcodes, step_canonical hexecuting hitem, length_cons]
    by_cases hfull : maxStackSize < vm.astack.length + (vm.dstack.length + 1)
    · have hexact : vm.astack.length + (vm.dstack.length + 1) = maxStackSize + 1 := by omega
      rw [if_pos hfull, hexact, if_pos (by omega)]
      rfl
    · have hlength : (vm.dstack ++ [item]).length = vm.dstack.length + 1 := by simp
      have hrest : vm.astack.length + (vm.dstack ++ [item]).length + items.length =
          vm.astack.length + vm.dstack.length + (items.length + 1) := by omega
      rw [if_neg hfull, call_ok_bind,
        @ih { vm with dstack := vm.dstack ++ [item] } hitems hexecuting
        (show vm.astack.length + (vm.dstack ++ [item]).length ≤ _ by omega)]
      simp only [hrest, append_assoc, singleton_append]

theorem executeScript_canonical :
    executeScript crypto source (items.flatMap (addRawData [])) verifyOnlyPush .new counter =
      (if maxStackSize < items.length then
        .error (.err (.stackSizeExceeded (maxStackSize + 1) maxStackSize))
      else .ok { TxScriptEngine.new with dstack := items }, counter) := by
  have hempty : new.astack.length + new.dstack.length = 0 := rfl
  rw [executeScript, Metered.bind_apply, parseScript_canonical hitems,
    runOpcodes_canonical hitems rfl (by omega), hempty, zero_add]
  by_cases hsize : maxStackSize < items.length
  · rw [if_pos hsize, if_pos hsize]
  · rw [if_neg hsize, if_neg hsize]
    rfl

end

/-- Pushes have one encoding. A signature script that succeeds is what the builder makes of the
items it leaves, and the items of a list that the stack can hold are what the script built from
them leaves. -/
theorem pushes_encoded_uniquely (crypto : Crypto) (source : ScriptSource)
    (counter : RuntimeSigOpCounter) :
    (∀ script vm counter',
      executeScript crypto source script true .new counter = (.ok vm, counter') →
        (∃ parts, vm.dstack.mapM (addData []) = .ok parts ∧ parts.flatten = script) ∧
          (script.length ≤ maxScriptsSize → buildPushes vm.dstack = .ok script)) ∧
    ∀ items : Stack, (∀ item ∈ items, item.length ≤ maxScriptElementSize) →
      (items.flatMap (addRawData [])).length ≤ maxScriptsSize → items.length ≤ maxStackSize →
        ∃ script, buildPushes items = .ok script ∧
          executeScript crypto source script true .new counter =
            (.ok { TxScriptEngine.new with dstack := items }, counter) := by
  constructor
  · intro script vm counter' hrun
    obtain ⟨rfl, hitems, _⟩ := executeScript_push_only hrun
    exact ⟨⟨_, mapM_addData hitems, rfl⟩, fun hfits => foldlM_addData hitems hfits⟩
  · intro items hitems hfits hsize
    refine ⟨_, foldlM_addData hitems hfits, ?_⟩
    rw [List.nil_append, executeScript_canonical hitems, if_neg (Nat.not_lt.mpr hsize)]

/-- The script that pushes 245 empty items is built but overflows the stack. -/
theorem pushes_overflow_stack :
    let items : Stack := List.replicate 245 []
    (∀ item ∈ items, item.length ≤ maxScriptElementSize) ∧
      (items.flatMap (addRawData [])).length ≤ maxScriptsSize ∧
      buildPushes items = .ok (items.flatMap (addRawData [])) ∧
      executeScript .accepting (.standAloneScripts []) (items.flatMap (addRawData [])) true .new
        (.new 0) = (.error (.err (.stackSizeExceeded 245 244)), .new 0) := by
  intro items
  have hitems : ∀ item ∈ items, item.length ≤ maxScriptElementSize := by
    intro item hitem
    rw [List.eq_of_mem_replicate hitem]
    exact Nat.zero_le _
  have hsize : maxStackSize < items.length := by
    rw [List.length_replicate]
    decide
  have hfits : (items.flatMap (addRawData [])).length ≤ maxScriptsSize := by
    have hbytes : addRawData [] [] = [opFalse] := rfl
    rw [List.flatMap_replicate, hbytes, List.flatten_replicate_singleton, List.length_replicate]
    decide
  refine ⟨hitems, hfits, foldlM_addData hitems hfits, ?_⟩
  rw [executeScript_canonical hitems, if_pos hsize]
  rfl

/-- An empty item, a number and a byte that no opcode pushes by itself. -/
theorem pushes_encoded_uniquely_three :
    let items : Stack := [[], [5], [200]]
    buildPushes items = .ok [0x00, 0x55, 0x01, 200] ∧
      executeScript .accepting (.standAloneScripts []) [0x00, 0x55, 0x01, 200] true .new (.new 0) =
        (.ok { TxScriptEngine.new with dstack := items }, .new 0) := by
  have hbuilt : buildPushes [[], [5], [200]] = .ok [0x00, 0x55, 0x01, 200] := by decide
  obtain ⟨script, hscript, hrun⟩ := (pushes_encoded_uniquely .accepting (.standAloneScripts [])
    (.new 0)).2 [[], [5], [200]] (by decide) (by decide) (by decide)
  cases hbuilt.symm.trans hscript
  exact ⟨hbuilt, hrun⟩

end TxScriptEngine

end Qaspa.Script
