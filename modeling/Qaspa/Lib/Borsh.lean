import Qaspa.Lib.LittleEndian
import Qaspa.Lib.Outcome

/-! # Borsh encodings

Fields are written one after the other, without anything between them. Numbers have a fixed
width, an optional value has a flag in front, and a vector has its length in front. A reader that
finds too little input consumes what there is and reports invalid data. Encodings and messages
are those that the borsh crate documents.
-/

namespace Qaspa.Borsh

open LittleEndian List

inductive ErrorKind where
  | unexpectedEof
  | invalidData
  deriving DecidableEq, Repr

structure Error where
  kind : ErrorKind
  message : String
  deriving DecidableEq, Repr

/-- The end of the input is reported as invalid data. -/
def unexpectedLengthOfInput : Error := ⟨.invalidData, "Unexpected length of input"⟩

def notAllBytesRead : Error := ⟨.invalidData, "Not all bytes read"⟩

def invalidOption (flag : UInt8) : Error :=
  ⟨.invalidData, s!"Invalid Option representation: {flag}. The first byte must be 0 or 1"⟩

def unexpectedVariantTag (tag : UInt8) : Error := ⟨.invalidData, s!"Unexpected variant tag: {tag}"⟩

def tooLong : Error := ⟨.invalidData, "invalid data"⟩

/-- The state is the input that is left, also when the reader fails. -/
abbrev Reader (α : Type) := EStateM Error (List UInt8) α

abbrev Written := Except Error (List UInt8)

variable {α β : Type}

/-! ## Sequences of fields -/

def concat : List Written → Written
  | [] => .ok []
  | field :: fields => do
    let bytes ← field
    let rest ← concat fields
    return bytes ++ rest

variable {fields : List Written}

theorem concat_cons_eq_ok {field : Written} {bytes : List UInt8} :
    concat (field :: fields) = .ok bytes ↔
      ∃ first rest, field = .ok first ∧ concat fields = .ok rest ∧ bytes = first ++ rest := by
  simp only [concat, Outcome.bind_eq_ok, pure, Except.pure, Except.ok.injEq, exists_and_left,
    eq_comm (a := bytes)]

theorem concat_pair_eq_ok {first second : Written} {bytes : List UInt8} :
    concat [first, second] = .ok bytes ↔
      ∃ head tail, first = .ok head ∧ second = .ok tail ∧ bytes = head ++ tail := by
  simp only [concat_cons_eq_ok]
  simp [concat]

theorem concat_concat {start last : List UInt8} {field : Written}
    (hstart : concat fields = .ok start)
    (hlast : field = .ok last) : concat (fields ++ [field]) = .ok (start ++ last) := by
  induction fields generalizing start with
  | nil =>
    cases hstart
    exact concat_cons_eq_ok.mpr ⟨last, [], hlast, rfl, (append_nil _).symm⟩
  | cons first fields ih =>
    obtain ⟨head, tail, hhead, htail, rfl⟩ := concat_cons_eq_ok.mp hstart
    exact concat_cons_eq_ok.mpr ⟨head, _, hhead, ih htail, append_assoc _ _ _⟩

theorem exists_concat (hfields : ∀ field ∈ fields, ∃ bytes, field = .ok bytes) :
    ∃ bytes, concat fields = .ok bytes := by
  induction fields with
  | nil => exact ⟨[], rfl⟩
  | cons field fields ih =>
    obtain ⟨hfield, hrest⟩ := forall_mem_cons.mp hfields
    obtain ⟨first, hfirst⟩ := hfield
    obtain ⟨rest, hrest⟩ := ih hrest
    exact ⟨first ++ rest, concat_cons_eq_ok.mpr ⟨first, rest, hfirst, hrest, rfl⟩⟩

variable {write : α → Written} {values : List α}

/-- Two encodings of a list, the second of which takes one byte more for every element. -/
theorem length_concat_map_succ {write' : α → Written}
    (hlonger : ∀ value bytes bytes', write value = .ok bytes → write' value = .ok bytes' →
      bytes'.length = bytes.length + 1) {bytes bytes' : List UInt8}
    (hwrite : concat (values.map write) = .ok bytes)
    (hwrite' : concat (values.map write') = .ok bytes') :
    bytes'.length = bytes.length + values.length := by
  induction values generalizing bytes bytes' with
  | nil =>
    cases hwrite
    cases hwrite'
    rfl
  | cons value values ih =>
    obtain ⟨first, rest, hfirst, hrest, rfl⟩ := concat_cons_eq_ok.mp hwrite
    obtain ⟨first', rest', hfirst', hrest', rfl⟩ := concat_cons_eq_ok.mp hwrite'
    have hhead := hlonger value first first' hfirst hfirst'
    have htail := ih hrest hrest'
    simp only [length_append, length_cons]
    omega

variable {read : Reader α} {input rest : List UInt8} {next : α → Reader β} {value : α}

theorem bind_eq_of_ok (hread : read input = .ok value rest) :
    (read >>= next) input = next value rest := by
  show EStateM.bind read next input = _
  rw [EStateM.bind, hread]

theorem bind_eq_of_error {error : Error} (hread : read input = .error error rest) :
    (read >>= next) input = .error error rest := by
  show EStateM.bind read next input = _
  rw [EStateM.bind, hread]

theorem bind_eq_ok {result : β} :
    (read >>= next) input = .ok result rest ↔
      ∃ value middle, read input = .ok value middle ∧ next value middle = .ok result rest := by
  cases hread : read input with
  | ok value middle => simp [bind_eq_of_ok hread]
  | error error middle => simp [bind_eq_of_error hread]

/-- No failure of the reader is reported as the end of a file. -/
def ReportsInvalidData (read : Reader α) : Prop :=
  ∀ input error rest, read input = .error error rest → error.kind = .invalidData

theorem ReportsInvalidData.bind (hread : ReportsInvalidData read)
    (hnext : ∀ value, ReportsInvalidData (next value)) : ReportsInvalidData (read >>= next) := by
  intro input error rest herror
  cases hfirst : read input with
  | ok value middle =>
    rw [bind_eq_of_ok hfirst] at herror
    exact hnext value middle error rest herror
  | error =>
    rw [bind_eq_of_error hfirst] at herror
    cases herror
    exact hread input error rest hfirst

/-! ## Round trips -/

/-- What is written of a value is read as an image of it, whatever follows. -/
def ReadsAs (image : α → β) (write : α → Written) (read : Reader β) : Prop :=
  ∀ value bytes, write value = .ok bytes → ∀ rest, read (bytes ++ rest) = .ok (image value) rest

variable {image : α → β}

/-- A field at the head of a sequence of fields. -/
theorem ReadsAs.bind {γ : Type} {read : Reader β} (hread : ReadsAs image write read)
    {bytes : List UInt8} (hwrite : write value = .ok bytes) (next : β → Reader γ)
    (rest : List UInt8) : (read >>= next) (bytes ++ rest) = next (image value) rest :=
  bind_eq_of_ok (hread value bytes hwrite rest)

/-- What is read is what would be written of the value. -/
def ReadsOnly (write : α → Written) (read : Reader α) : Prop :=
  ∀ input value rest, read input = .ok value rest →
    ∃ bytes, write value = .ok bytes ∧ input = bytes ++ rest

/-- The field that was read at the head of a sequence of fields. -/
theorem ReadsOnly.bind (honly : ReadsOnly write read) {result : β}
    (hread : (read >>= next) input = .ok result rest) :
    ∃ value bytes middle, write value = .ok bytes ∧ input = bytes ++ middle ∧
      next value middle = .ok result rest := by
  obtain ⟨value, middle, hvalue, hnext⟩ := bind_eq_ok.mp hread
  obtain ⟨bytes, hwrite, hinput⟩ := honly input value middle hvalue
  exact ⟨value, bytes, middle, hwrite, hinput, hnext⟩

/-- A writer and a reader that are inverse to each other. -/
structure Codec (α : Type) where
  write : α → Written
  read : Reader α
  readsBack : ReadsAs id write read
  readsOnly : ReadsOnly write read

theorem Codec.bind (codec : Codec α) {bytes : List UInt8} (hwrite : codec.write value = .ok bytes)
    (next : α → Reader β) (rest : List UInt8) :
    (codec.read >>= next) (bytes ++ rest) = next value rest :=
  codec.readsBack.bind hwrite next rest

/-! ## Records -/

/-- Fields that are read as a value, with `rest` behind them. -/
def FieldsRead (rest : List UInt8) (fields : List Written) (read : Reader β) (result : β) : Prop :=
  ∀ bytes, concat fields = .ok bytes → read (bytes ++ rest) = .ok result rest

section Records

variable {γ : Type} {result : γ}

theorem fieldsRead_nil {read : Reader γ} (hread : read rest = .ok result rest) :
    FieldsRead rest [] read result := by
  rintro _ ⟨⟩
  exact hread

theorem ReadsAs.field {read : Reader β} {next : β → Reader γ} (hread : ReadsAs image write read)
    (hnext : FieldsRead rest fields (next (image value)) result) :
    FieldsRead rest (write value :: fields) (read >>= next) result := by
  intro bytes hwrite
  obtain ⟨first, tail, hfirst, htail, rfl⟩ := concat_cons_eq_ok.mp hwrite
  rw [append_assoc, hread.bind hfirst]
  exact hnext tail htail

theorem Codec.field (codec : Codec α) {next : α → Reader γ}
    (hnext : FieldsRead rest fields (next value) result) :
    FieldsRead rest (codec.write value :: fields) (codec.read >>= next) result :=
  codec.readsBack.field hnext

theorem readsAs_of_fields {fields : α → List Written} {read : Reader β}
    (hwrite : ∀ value, write value = concat (fields value))
    (hread : ∀ value rest, FieldsRead rest (fields value) read (image value)) :
    ReadsAs image write read :=
  fun value bytes hbytes rest => hread value rest bytes ((hwrite value).symm.trans hbytes)

end Records

/-- What is read behind some fields is what would be written behind them. -/
def FieldsOnly (write : β → Written) (fields : List Written) (read : Reader β) : Prop :=
  ∀ input result rest, read input = .ok result rest → ∀ start, concat fields = .ok start →
    ∃ bytes, write result = .ok bytes ∧ start ++ input = bytes ++ rest

variable {writeAll : β → Written}

theorem ReadsOnly.field (honly : ReadsOnly write read)
    (hnext : ∀ value, FieldsOnly writeAll (fields ++ [write value]) (next value)) :
    FieldsOnly writeAll fields (read >>= next) := by
  intro input result rest hread start hstart
  obtain ⟨value, bytes, middle, hbytes, rfl, hvalue⟩ := honly.bind hread
  rw [← append_assoc]
  exact hnext value middle result rest hvalue _ (concat_concat hstart hbytes)

theorem fieldsOnly_pure {result : β} (hwrite : writeAll result = concat fields) :
    FieldsOnly writeAll fields (pure result) := by
  rintro input _ _ ⟨⟩ start hstart
  exact ⟨start, hwrite.trans hstart, rfl⟩

theorem readsOnly_of_fields (hread : FieldsOnly write [] read) : ReadsOnly write read :=
  fun input value rest hvalue => hread input value rest hvalue [] rfl

/-! ## Fixed widths -/

def readExact (count : Nat) : Reader (List UInt8) := fun input =>
  if count ≤ input.length then .ok (input.take count) (input.drop count)
  else .error unexpectedLengthOfInput []

theorem readExact_append {bytes : List UInt8} {count : Nat} (hlength : bytes.length = count)
    (rest : List UInt8) : readExact count (bytes ++ rest) = .ok bytes rest := by
  subst hlength
  rw [readExact, if_pos (by simp), take_left, drop_left]

theorem readExact_eq_ok {count : Nat} {bytes : List UInt8}
    (hread : readExact count input = .ok bytes rest) :
    bytes.length = count ∧ input = bytes ++ rest := by
  rw [readExact] at hread
  split at hread
  next hcount =>
    cases hread
    exact ⟨length_take_of_le hcount, (take_append_drop count input).symm⟩
  · cases hread

theorem readExact_reportsInvalidData (count : Nat) : ReportsInvalidData (readExact count) := by
  intro input error rest hread
  rw [readExact] at hread
  split at hread
  · cases hread
  · cases hread
    rfl

/-- A number of `width` bytes. -/
def word (width : Nat) (toNat : α → Nat) (ofNat : Nat → α)
    (hlt : ∀ value, toNat value < 256 ^ width) (hinverse : ∀ value, ofNat (toNat value) = value)
    (hofNat : ∀ number < 256 ^ width, toNat (ofNat number) = number) : Codec α where
  write value := .ok (encode width (toNat value))
  read := do return ofNat (decode (← readExact width))
  readsBack := by
    intro value bytes hwrite rest
    cases hwrite
    rw [bind_eq_of_ok (readExact_append (encode_length width _) rest),
      decode_encode (hlt value), hinverse]
    rfl
  readsOnly := by
    intro input value rest hread
    obtain ⟨bytes, middle, hbytes, hvalue⟩ := bind_eq_ok.mp hread
    cases hvalue
    obtain ⟨hlength, rfl⟩ := readExact_eq_ok hbytes
    have hdecode : decode bytes < 256 ^ width := hlength ▸ decode_lt bytes
    refine ⟨bytes, congrArg Except.ok ?_, rfl⟩
    rw [hofNat _ hdecode, encode_decode_of_length hlength]

theorem word_reportsInvalidData {width : Nat} {toNat : α → Nat} {ofNat : Nat → α}
    {hlt : ∀ value, toNat value < 256 ^ width} {hinverse : ∀ value, ofNat (toNat value) = value}
    {hofNat : ∀ number < 256 ^ width, toNat (ofNat number) = number} :
    ReportsInvalidData (word width toNat ofNat hlt hinverse hofNat).read :=
  (readExact_reportsInvalidData width).bind fun _ _ _ _ herror => (nomatch herror)

def u8 : Codec UInt8 :=
  word 1 UInt8.toNat UInt8.ofNat UInt8.toNat_lt (fun _ => UInt8.ofNat_toNat)
    fun _ hlt => UInt8.toNat_ofNat_of_lt' hlt

def u32 : Codec UInt32 :=
  word 4 UInt32.toNat UInt32.ofNat UInt32.toNat_lt (fun _ => UInt32.ofNat_toNat)
    fun _ hlt => UInt32.toNat_ofNat_of_lt' hlt

def u64 : Codec UInt64 :=
  word 8 UInt64.toNat UInt64.ofNat UInt64.toNat_lt (fun _ => UInt64.ofNat_toNat)
    fun _ hlt => UInt64.toNat_ofNat_of_lt' hlt

/-- Thirty-two bytes, the first of them the lowest. -/
def array32 : Codec (BitVec 256) :=
  word 32 BitVec.toNat (BitVec.ofNat 256) BitVec.isLt (fun _ => BitVec.ofNat_toNat _ _)
    fun _ hlt => Nat.mod_eq_of_lt hlt

/-! ## Optional values -/

def readOption (read : Reader α) : Reader (Option α) := do
  let flag ← u8.read
  if flag = 0 then return none
  else if flag = 1 then return some (← read)
  else throw (invalidOption flag)

def writeOption (write : α → Written) : Option α → Written
  | none => u8.write 0
  | some value => concat [u8.write 1, write value]

def option (codec : Codec α) : Codec (Option α) where
  write := writeOption codec.write
  read := readOption codec.read
  readsBack := by
    intro value bytes hwrite rest
    cases value with
    | none =>
      rw [readOption, u8.bind hwrite]
      rfl
    | some value =>
      refine u8.field ?_ bytes hwrite
      exact codec.field (fieldsRead_nil rfl)
  readsOnly := by
    apply readsOnly_of_fields
    refine u8.readsOnly.field fun flag => ?_
    split
    next hzero =>
      subst hzero
      exact fieldsOnly_pure rfl
    · split
      next hone =>
        subst hone
        exact codec.readsOnly.field fun _ => fieldsOnly_pure rfl
      · rintro _ _ _ ⟨⟩

theorem option_reportsInvalidData {codec : Codec α} (hcodec : ReportsInvalidData codec.read) :
    ReportsInvalidData (option codec).read := by
  refine word_reportsInvalidData.bind fun flag => ?_
  split
  · intro _ _ _ herror
    cases herror
  · split
    · exact hcodec.bind fun _ _ _ _ herror => (nomatch herror)
    · intro _ _ _ herror
      cases herror
      rfl

theorem exists_writeOption {codec : Codec α}
    (hwrite : ∀ value, ∃ bytes, codec.write value = .ok bytes)
    (value : Option α) : ∃ bytes, (option codec).write value = .ok bytes := by
  cases value with
  | none => exact ⟨_, rfl⟩
  | some value =>
    apply exists_concat
    simp only [forall_mem_cons, not_mem_nil, false_imp_iff, implies_true, and_true]
    exact ⟨⟨_, rfl⟩, hwrite value⟩

/-! ## Vectors -/

def readTimes (read : Reader α) : Nat → Reader (List α)
  | 0 => return []
  | count + 1 => do
    let value ← read
    let values ← readTimes read count
    return value :: values

def readVec (read : Reader α) : Reader (List α) := do
  let length ← u32.read
  readTimes read length.toNat

def writeVec (write : α → Written) (values : List α) : Written :=
  if values.length < 2 ^ 32 then
    concat (u32.write (UInt32.ofNat values.length) :: values.map write)
  else .error tooLong

theorem readTimes_concat {read : Reader β} (hread : ReadsAs image write read) {bytes : List UInt8}
    (hwrite : concat (values.map write) = .ok bytes) (rest : List UInt8) :
    readTimes read values.length (bytes ++ rest) = .ok (values.map image) rest := by
  induction values generalizing bytes with
  | nil =>
    cases hwrite
    rfl
  | cons value values ih =>
    obtain ⟨first, tail, hfirst, htail, rfl⟩ := concat_cons_eq_ok.mp hwrite
    rw [length_cons, readTimes, append_assoc, hread.bind hfirst, bind_eq_of_ok (ih htail)]
    rfl

/-- A vector is written if its length fits into the field in front of its elements. -/
theorem writeVec_eq_ok {bytes : List UInt8} :
    writeVec write values = .ok bytes ↔
      values.length < 2 ^ 32 ∧ ∃ length elements,
        u32.write (UInt32.ofNat values.length) = .ok length ∧
          concat (values.map write) = .ok elements ∧ bytes = length ++ elements := by
  rw [writeVec]
  by_cases hlength : values.length < 2 ^ 32
  · rw [if_pos hlength, concat_cons_eq_ok]
    exact ⟨fun hbytes => ⟨hlength, hbytes⟩, fun hbytes => hbytes.2⟩
  · rw [if_neg hlength]
    exact ⟨nofun, fun hbytes => absurd hbytes.1 hlength⟩

theorem readTimes_only (honly : ReadsOnly write read) {count : Nat}
    (hread : readTimes read count input = .ok values rest) :
    values.length = count ∧ ∃ bytes, concat (values.map write) = .ok bytes ∧
      input = bytes ++ rest := by
  induction count generalizing input values with
  | zero =>
    cases hread
    exact ⟨rfl, [], rfl, rfl⟩
  | succ count ih =>
    obtain ⟨value, first, middle, hfirst, rfl, hnext⟩ := honly.bind hread
    obtain ⟨tail, last, htail, hlast⟩ := bind_eq_ok.mp hnext
    cases hlast
    obtain ⟨hlength, bytes, hbytes, rfl⟩ := ih htail
    refine ⟨congrArg Nat.succ hlength, first ++ bytes, ?_, (append_assoc _ _ _).symm⟩
    exact concat_cons_eq_ok.mpr ⟨first, bytes, hfirst, hbytes, rfl⟩

theorem readsOnly_vec (honly : ReadsOnly write read) :
    ReadsOnly (writeVec write) (readVec read) := by
  intro input values rest hread
  obtain ⟨length, lengthBytes, middle, hlength, rfl, hnext⟩ := u32.readsOnly.bind hread
  obtain ⟨hcount, elements, helements, rfl⟩ := readTimes_only honly hnext
  refine ⟨lengthBytes ++ elements,
    writeVec_eq_ok.mpr ⟨?_, lengthBytes, elements, ?_, helements, rfl⟩,
    (append_assoc _ _ _).symm⟩
  · rw [hcount]
    exact length.toNat_lt
  · rw [hcount, UInt32.ofNat_toNat]
    exact hlength

theorem exists_writeVec (hlength : values.length < 2 ^ 32)
    (hwrite : ∀ value ∈ values, ∃ bytes, write value = .ok bytes) :
    ∃ bytes, writeVec write values = .ok bytes := by
  obtain ⟨elements, helements⟩ := exists_concat (forall_mem_map.mpr hwrite)
  exact ⟨_, writeVec_eq_ok.mpr ⟨hlength, _, elements, rfl, helements, rfl⟩⟩

theorem readsAs_vec {read : Reader β} (hread : ReadsAs image write read) :
    ReadsAs (map image) (writeVec write) (readVec read) := by
  intro values bytes hwrite rest
  obtain ⟨hlength, length, elements, hcount, helements, rfl⟩ := writeVec_eq_ok.mp hwrite
  rw [append_assoc, readVec, u32.bind hcount, UInt32.toNat_ofNat_of_lt' hlength]
  exact readTimes_concat hread helements rest

def writeBytes (values : List UInt8) : Written :=
  if values.length < 2 ^ 32 then concat [u32.write (UInt32.ofNat values.length), .ok values]
  else .error tooLong

/-- A vector of bytes, which is read in one piece. -/
def bytes : Codec (List UInt8) where
  write := writeBytes
  read := do
    let length ← u32.read
    readExact length.toNat
  readsBack := by
    intro values bytes hwrite rest
    rw [writeBytes] at hwrite
    by_cases hlength : values.length < 2 ^ 32
    · rw [if_pos hlength] at hwrite
      obtain ⟨count, first, hcount, hfirst, rfl⟩ := concat_pair_eq_ok.mp hwrite
      cases hfirst
      rw [List.append_assoc, u32.bind hcount, UInt32.toNat_ofNat_of_lt' hlength]
      exact readExact_append rfl rest
    · rw [if_neg hlength] at hwrite
      cases hwrite
  readsOnly := by
    intro input values rest hread
    obtain ⟨length, lengthBytes, middle, hlength, rfl, hnext⟩ := u32.readsOnly.bind hread
    obtain ⟨hcount, rfl⟩ := readExact_eq_ok hnext
    refine ⟨lengthBytes ++ values, ?_, (List.append_assoc _ _ _).symm⟩
    rw [writeBytes, if_pos (hcount ▸ length.toNat_lt), hcount, UInt32.ofNat_toNat]
    exact concat_pair_eq_ok.mpr ⟨lengthBytes, values, hlength, rfl, rfl⟩

/-! ## Whole inputs -/

def tryFromSlice (read : Reader α) (input : List UInt8) : Except Error α :=
  match read input with
  | .ok value [] => .ok value
  | .ok _ (_ :: _) => .error notAllBytesRead
  | .error error _ => .error error

theorem tryFromSlice_eq_ok : tryFromSlice read input = .ok value ↔ read input = .ok value [] := by
  rw [tryFromSlice]
  cases hread : read input with
  | error error rest => simp
  | ok found rest =>
    cases rest with
    | nil => simp
    | cons byte rest => simp

theorem ReadsAs.tryFromSlice {read : Reader β} (hread : ReadsAs image write read)
    {bytes : List UInt8} (hwrite : write value = .ok bytes) :
    tryFromSlice read bytes = .ok (image value) := by
  rw [tryFromSlice_eq_ok, ← append_nil bytes]
  exact hread value bytes hwrite []

end Qaspa.Borsh
