import Qaspa.Lib.Signed
import Qaspa.Lib.Vec
import Qaspa.Script.Opcodes

/-! # The data stack

A stack is a vector of byte strings with its top at the end. Numbers are pushed as sign and
magnitude with the lowest byte first, in as few bytes as possible; popping a number checks that.
Every operation that does not find its operands is an error. None of them panics: the index and
the arithmetic of each operation stay in range by the check that precedes it.
-/

namespace Qaspa.Script

open Outcome Signed

/-! ## Numbers -/

/-- Whether a last byte that holds the sign alone is needed, which it is if the byte before it has
its top bit set. -/
def signByteNeeded (v : List UInt8) : Outcome TxScriptError Bool :=
  if v.length = 1 then .ok false
  else do
    let byte ← vecGetBack v 2
    return byte &&& 0x80 != 0

/-- A number must use as few bytes as possible. -/
def checkMinimalDataEncoding (v : List UInt8) : Outcome TxScriptError Unit :=
  if v.isEmpty then .ok ()
  else do
    let msb ← vecGetBack v 1
    if msb &&& 0x7f = 0 then
      if ← signByteNeeded v then .ok ()
      else
        fail (.notMinimalData ("numeric value encoded as " ++ hexDebug v ++
          " is not minimally encoded"))
    else .ok ()

/-- The bytes of a magnitude, with a zero byte at the end if the sign would not fit otherwise. A
64-bit word has at most nine of them. -/
def magnitudeBytes : Nat → Nat → Bool → List UInt8
  | 0, _, _ => []
  | _ + 1, 0, lastSaturated => if lastSaturated then [0] else []
  | count + 1, positive, _ =>
    UInt8.ofNat positive ::
      magnitudeBytes count (positive / 256) (UInt8.ofNat positive &&& 0x80 != 0)

def serializeI64 (number : Int) : Outcome TxScriptError (List UInt8) :=
  let bytes := magnitudeBytes 9 number.natAbs false
  if number.sign = -1 then
    match bytes.getLast? with
    | some byte => .ok (bytes.dropLast ++ [byte ||| 0x80])
    | none => .error .panic
  else .ok bytes

def deserializeI64 (v : List UInt8) : Outcome TxScriptError Int :=
  if 8 < v.length then
    fail (.notMinimalData ("numeric value encoded as " ++ hexDebug v ++ " is longer than 8 bytes"))
  else if v.length = 0 then .ok 0
  else do
    checkMinimalDataEncoding v
    let msb ← vecGetBack v 1
    let sign : Int := 1 - 2 * (msb >>> 7).toNat
    let firstByte : Int := (msb &&& 0x7f).toNat
    let magnitude ← v.dropLast.reverse.foldlM
      (fun accum byte => plain 64 (shiftLeft 64 accum 8 + byte.toNat)) firstByte
    plain 64 (magnitude * sign)

/-- Read a number of at most `len` bytes. -/
def deserializeSized (len : Nat) (v : List UInt8) : Outcome TxScriptError Int :=
  if len < v.length then
    fail (.numberTooBig ("numeric value encoded as " ++ hexDebug v ++ " is " ++ toString v.length ++
      " bytes which exceeds the max allowed of " ++ toString len))
  else deserializeI64 v

/-- Write a number in at most `len` bytes. -/
def serializeSized (len : Nat) (number : Int) : Outcome TxScriptError (List UInt8) := do
  let bytes ← serializeI64 number
  if len < bytes.length then fail (.serialization (.numberTooLong number)) else .ok bytes

def deserializeLong : List UInt8 → Outcome TxScriptError Int := deserializeSized 8

/-- A 32-bit number. The conversion to the smaller word must succeed. -/
def deserializeInt (v : List UInt8) : Outcome TxScriptError Int := do
  let number ← deserializeSized 4 v
  unwrap (checked 32 number)

def deserializeBool (v : List UInt8) : Outcome TxScriptError Bool :=
  if v.isEmpty then .ok false
  else do
    let msb ← vecGetBack v 1
    -- negative zero is false as well
    return msb &&& 0x7f != 0 || v.dropLast.any (· != 0)

def serializeBool (value : Bool) : List UInt8 := if value then [1] else []

open List Nat U64

section Numbers

variable {v : List UInt8}

theorem signByteNeeded_returns (hlength : 1 ≤ v.length) : Faultless (signByteNeeded v) := by
  unfold signByteNeeded
  split
  · exact returns_ok trivial
  next hone => exact (vecGetBack_returns two_pos (by omega)).bind fun _ _ => returns_ok trivial

theorem checkMinimalDataEncoding_returns : Faultless (checkMinimalDataEncoding v) := by
  unfold checkMinimalDataEncoding
  split
  · exact returns_ok trivial
  next hempty =>
    have hlength : 1 ≤ v.length := length_pos_iff.mpr (by simpa using hempty)
    apply (vecGetBack_returns one_pos hlength).bind
    intro msb _
    split
    · apply (signByteNeeded_returns hlength).bind
      intro needed _
      cases needed with
      | false => exact returns_err
      | true => exact returns_ok trivial
    · exact returns_ok trivial

/-- The bytes below the sign byte are shifted in without leaving the word. -/
theorem foldlM_magnitude (bytes : List UInt8) {accum : Int} (hnonneg : 0 ≤ accum)
    (hfits : (accum + 1) * 256 ^ bytes.length ≤ 2 ^ 63) :
    ∃ magnitude : Int, bytes.foldlM (fun accum byte =>
        (plain 64 (shiftLeft 64 accum 8 + byte.toNat) : Outcome TxScriptError Int))
        accum = .ok magnitude ∧
      0 ≤ magnitude ∧ magnitude < (accum + 1) * 256 ^ bytes.length := by
  induction bytes generalizing accum with
  | nil => exact ⟨accum, rfl, hnonneg, by simp⟩
  | cons byte rest ih =>
    have hbyte : byte.toNat < 256 := byte.toNat_lt
    have hpow : (0 : Int) < 256 ^ rest.length := Int.pow_pos (by decide)
    rw [length_cons, pow_succ, ← mul_assoc, mul_right_comm] at hfits ⊢
    have hword : (accum + 1) * 256 * 1 ≤ (accum + 1) * 256 * 256 ^ rest.length :=
      Int.mul_le_mul_of_nonneg_left (by omega) (by omega)
    have hshift : shiftLeft 64 accum 8 = accum * 256 :=
      shiftLeft_eq (by omega) (by omega)
    have hsum : (accum * 256 + byte.toNat + 1) * 256 ^ rest.length ≤
        (accum + 1) * 256 * 256 ^ rest.length :=
      Int.mul_le_mul_of_nonneg_right (by omega) (by omega)
    obtain ⟨magnitude, hfold, hlow, hhigh⟩ :=
      @ih (accum * 256 + byte.toNat) (by omega) (hsum.trans hfits)
    refine ⟨magnitude, ?_, hlow, by omega⟩
    rw [foldlM_cons, hshift, plain_eq_ok (by constructor <;> omega), ok_bind, hfold]

/-- Seven bits and seven bytes make up the magnitude of a word. -/
theorem exists_magnitude {top : Nat} {bytes : List UInt8} (htop : top ≤ 127)
    (hlength : bytes.length ≤ 7) :
    ∃ magnitude : Int, bytes.foldlM (fun accum byte =>
        (plain 64 (shiftLeft 64 accum 8 + byte.toNat) : Outcome TxScriptError Int))
        (top : Int) = .ok magnitude ∧
      0 ≤ magnitude ∧ magnitude < 2 ^ (8 * bytes.length + 7) := by
  have hpow : (256 : Int) ^ bytes.length ≤ 256 ^ 7 := by
    exact_mod_cast Nat.pow_le_pow_right (Nat.le_of_ble_eq_true rfl : 256 > 0) hlength
  have hpos : (0 : Int) < 256 ^ bytes.length := Int.pow_pos (by decide)
  have hbound : (top + 1 : Int) * 256 ^ bytes.length ≤ 128 * 256 ^ bytes.length :=
    Int.mul_le_mul_of_nonneg_right (by omega) (by omega)
  have hbits : (2 : Int) ^ (8 * bytes.length + 7) = 128 * 256 ^ bytes.length := by
    rw [pow_add, pow_mul, mul_comm]
    rfl
  obtain ⟨magnitude, hfold, hlow, hhigh⟩ :=
    foldlM_magnitude bytes (Int.natCast_nonneg top) (by omega)
  exact ⟨magnitude, hfold, hlow, by omega⟩

/-- A number of `n` bytes has at most `8 * n - 1` bits besides its sign. -/
theorem deserializeI64_returns :
    Returns (deserializeI64 v) fun number => number.natAbs < 2 ^ (8 * v.length - 1) := by
  refine .check fun hlong => ?_
  split
  next hempty => exact returns_ok (by simp [hempty])
  next hempty =>
    apply checkMinimalDataEncoding_returns.bind
    intro _ _
    apply (vecGetBack_returns one_pos (by omega)).bind
    intro msb _
    have htop : (msb &&& 0x7f).toNat ≤ 127 := by
      exact and_le_right
    have hsign : (msb >>> 7).toNat ≤ 1 := by
      rw [UInt8.toNat_shiftRight, shiftRight_eq_div_pow]
      have := msb.toNat_lt
      change _ / 128 ≤ 1
      omega
    have hlength : v.dropLast.reverse.length = v.length - 1 := by simp
    obtain ⟨magnitude, hfold, hlow, hhigh⟩ := exists_magnitude htop (by rw [hlength]; omega)
    rw [hlength, show 8 * (v.length - 1) + 7 = 8 * v.length - 1 by omega] at hhigh
    have hword : (2 : Int) ^ (8 * v.length - 1) ≤ 2 ^ 63 := by
      exact_mod_cast Nat.pow_le_pow_right Nat.two_pos (by omega : 8 * v.length - 1 ≤ 63)
    have hcast : ((2 ^ (8 * v.length - 1) : Nat) : Int) = 2 ^ (8 * v.length - 1) :=
      by push_cast; rfl
    simp only [hfold, ok_bind]
    rcases le_one_iff_eq_zero_or_eq_one.mp hsign with hsign | hsign
    · rw [hsign, plain_eq_ok (by constructor <;> omega)]
      exact returns_ok (by omega)
    · rw [hsign, plain_eq_ok (by constructor <;> omega)]
      exact returns_ok (by omega)

theorem deserializeSized_returns {len : Nat} :
    Returns (deserializeSized len v) fun number => number.natAbs < 2 ^ (8 * len - 1) := by
  refine .check fun hlen => deserializeI64_returns.mono fun number hnumber => ?_
  exact hnumber.trans_le (Nat.pow_le_pow_right (by decide) (by omega))

theorem deserializeLong_returns : Faultless (deserializeLong v) :=
  deserializeSized_returns.mono fun _ _ => trivial

theorem deserializeInt_returns : Faultless (deserializeInt v) := by
  apply deserializeSized_returns.bind
  intro number hnumber
  have hrange : Signed.InRange 32 number := by
    constructor <;> omega
  rw [checked, if_pos hrange]
  exact returns_ok trivial

theorem deserializeBool_returns : Faultless (deserializeBool v) := by
  unfold deserializeBool
  split
  · exact returns_ok trivial
  next hempty =>
    have hlength : 1 ≤ v.length := length_pos_iff.mpr (by simpa using hempty)
    exact (vecGetBack_returns one_pos hlength).bind fun _ _ => returns_ok trivial

theorem serializeI64_returns (number : Int) : Faultless (serializeI64 number) := by
  unfold serializeI64
  simp only
  split
  next hsign =>
    have hne : number.natAbs ≠ 0 := by
      rintro hzero
      rw [Int.natAbs_eq_zero.mp hzero] at hsign
      cases hsign
    obtain ⟨below, hbelow⟩ := exists_eq_succ_of_ne_zero hne
    have hnil : magnitudeBytes 9 (below + 1) false ≠ [] := cons_ne_nil _ _
    rw [hbelow, getLast?_eq_some_getLast hnil]
    exact returns_ok trivial
  · exact returns_ok trivial

theorem serializeSized_returns (len : Nat) (number : Int) :
    Faultless (serializeSized len number) := by
  apply (serializeI64_returns number).bind
  exact fun bytes _ => .check fun _ => returns_ok trivial

end Numbers

/-! ## Stack operations -/

abbrev Stack := List (List UInt8)

section Operations

variable {α : Type}

/-- Pop the topmost items, the deepest of them first. -/
def popItems (deserialize : List UInt8 → Outcome TxScriptError α) (size : Nat) (stack : Stack) :
    Outcome TxScriptError ((Fin size → α) × Stack) :=
  if stack.length < size then fail (.invalidStackOperation size stack.length)
  else do
    let (rest, items) ← vecSplitOffBack stack size
    let values ← items.mapM deserialize
    if h : values.length = size then .ok (fun i => values.get (i.cast h.symm), rest)
    else .error .panic

def popRaw (size : Nat) (stack : Stack) : Outcome TxScriptError ((Fin size → List UInt8) × Stack) :=
  popItems .ok size stack

/-- The topmost items, which stay on the stack. -/
def peekRaw (size : Nat) (stack : Stack) : Outcome TxScriptError (Fin size → List UInt8) := do
  let (items, _) ← popRaw size stack
  return items

def pushLong (number : Int) (stack : Stack) : Outcome TxScriptError Stack := do
  let bytes ← serializeSized 8 number
  return stack ++ [bytes]

def pushBool (value : Bool) (stack : Stack) : Stack := stack ++ [serializeBool value]

def dropItems (size : Nat) (stack : Stack) : Outcome TxScriptError Stack :=
  if size ≤ stack.length then do
    let length ← U64.sub stack.length size
    return stack.take length
  else fail (.invalidStackOperation size stack.length)

def dupItems (size : Nat) (stack : Stack) : Outcome TxScriptError Stack :=
  if size ≤ stack.length then do
    let start ← U64.sub stack.length size
    let items ← vecSlice stack start stack.length
    return stack ++ items
  else fail (.invalidStackOperation size stack.length)

def overItems (size : Nat) (stack : Stack) : Outcome TxScriptError Stack :=
  if 2 * size ≤ stack.length then do
    let start ← U64.sub stack.length (2 * size)
    let stop ← U64.sub stack.length size
    let items ← vecSlice stack start stop
    return stack ++ items
  else fail (.invalidStackOperation (2 * size) stack.length)

def rotItems (size : Nat) (stack : Stack) : Outcome TxScriptError Stack :=
  if 3 * size ≤ stack.length then do
    let start ← U64.sub stack.length (3 * size)
    let stop ← U64.sub stack.length (2 * size)
    let (drained, rest) ← vecDrain stack start stop
    return rest ++ drained
  else fail (.invalidStackOperation (3 * size) stack.length)

def swapItems (size : Nat) (stack : Stack) : Outcome TxScriptError Stack :=
  if 2 * size ≤ stack.length then do
    let start ← U64.sub stack.length (2 * size)
    let stop ← U64.sub stack.length size
    let (drained, rest) ← vecDrain stack start stop
    return rest ++ drained
  else fail (.invalidStackOperation (2 * size) stack.length)

variable {deserialize : List UInt8 → Outcome TxScriptError α} (size : Nat) (stack : Stack)

theorem mapM_returns {onOk : α → Prop} (hdeserialize : ∀ v, Returns (deserialize v) onOk)
    (items : Stack) :
    Returns (items.mapM deserialize) fun values =>
      values.length = items.length ∧ ∀ value ∈ values, onOk value := by
  induction items with
  | nil => exact returns_ok ⟨rfl, by simp⟩
  | cons item rest ih =>
    rw [mapM_cons]
    apply (hdeserialize item).bind
    intro value hvalue
    apply ih.bind
    rintro values ⟨hlength, hvalues⟩
    exact returns_ok ⟨by simp [hlength], by simpa using ⟨hvalue, hvalues⟩⟩

/-- Items that can be read are taken off the stack. -/
theorem popItems_returns {onOk : α → Prop} (hdeserialize : ∀ v, Returns (deserialize v) onOk)
    (size : Nat) (stack : Stack) :
    Returns (popItems deserialize size stack) fun popped =>
      (∀ i, onOk (popped.1 i)) ∧ popped.2.length + size = stack.length := by
  refine .check fun hsize => ?_
  rw [vecSplitOffBack_of_le (by omega)]
  apply (mapM_returns hdeserialize _).bind
  rintro values ⟨hlength, hvalues⟩
  have hvalues' : values.length = size := by
    rw [hlength, length_drop]
    omega
  rw [dif_pos hvalues']
  refine returns_ok ⟨fun i => hvalues _ (get_mem _ _), ?_⟩
  rw [length_take]
  omega

theorem popRaw_returns :
    Returns (popRaw size stack) fun popped => popped.2.length + size = stack.length :=
  (popItems_returns (fun _ => returns_ok trivial) size stack).mono fun _ hpopped => hpopped.2

/-- The top item alone. -/
theorem popItems_concat (deserialize : List UInt8 → Outcome TxScriptError α) (rest : Stack)
    (item : List UInt8) :
    popItems deserialize 1 (rest ++ [item]) =
      deserialize item >>= fun value => .ok (fun _ => value, rest) := by
  rw [popItems, if_neg (by simp), show (1 : Nat) = [item].length from rfl, vecSplitOffBack_append,
    ok_bind]
  simp only [mapM_cons, mapM_nil]
  cases deserialize item with
  | error fault => rfl
  | ok value =>
    simp only [ok_bind, pure_eq_ok, length_cons, length_nil, dite_true]
    rw [Except.ok.injEq, Prod.mk.injEq]
    simp

theorem pushLong_returns (number : Int) (stack : Stack) : Faultless (pushLong number stack) :=
  (serializeSized_returns 8 number).bind fun _ _ => returns_ok trivial

theorem dropItems_returns : Faultless (dropItems size stack) := by
  refine .guard fun hsize => ?_
  rw [sub_of_le hsize]
  exact returns_ok trivial

theorem dupItems_returns : Faultless (dupItems size stack) := by
  refine .guard fun hsize => ?_
  rw [sub_of_le hsize, ok_bind, vecSlice_of_le (by omega) (by omega)]
  exact returns_ok trivial

theorem overItems_returns : Faultless (overItems size stack) := by
  refine .guard fun hsize => ?_
  rw [sub_of_le hsize, ok_bind, sub_of_le (by omega), ok_bind,
    vecSlice_of_le (by omega) (by omega)]
  exact returns_ok trivial

theorem rotItems_returns : Faultless (rotItems size stack) := by
  refine .guard fun hsize => ?_
  rw [sub_of_le hsize, ok_bind, sub_of_le (by omega), ok_bind,
    vecDrain_of_le (by omega) (by omega)]
  exact returns_ok trivial

theorem swapItems_returns : Faultless (swapItems size stack) := by
  refine .guard fun hsize => ?_
  rw [sub_of_le hsize, ok_bind, sub_of_le (by omega), ok_bind,
    vecDrain_of_le (by omega) (by omega)]
  exact returns_ok trivial

end Operations

end Qaspa.Script
