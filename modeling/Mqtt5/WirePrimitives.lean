import Mathlib.Data.List.Induction
import Mathlib.Tactic.NormNum
import Mqtt5.ByteParser
import Mqtt5.ByteWriter
import Mqtt5.Base128

/-!
# Primitive fields

The readers and writers of `fixed_int`, `varlen_int`, `string`, `binary` and
`key_value_pair`, over the span a `data_fetcher` points to. A read outside the span is
not an exception in the source, so it is a fault of its own here.
-/
namespace Mqtt5.WirePrimitives
open ByteParser ByteWriter

abbrev Bytes := List UInt8

inductive Fault
  | protocolError (what : String)
  | runtimeError (what : String)
  /-- A position outside the span is dereferenced; no exception is thrown. -/
  | outOfBounds
  /-- A loop was cut off by the fuel of its model. -/
  | unfinished
  deriving DecidableEq, Repr

abbrev Reader := Parser UInt8 Fault
abbrev Writer := Written UInt8 Fault

/-- `data_fetcher::cspan()` -/
def cspan : Reader Bytes := get

/-- `data_fetcher::cspan(size_)` -/
def cspanN (size : ℕ) : Reader Bytes := do
  let data ← cspan
  if data.length < size then throw (.runtimeError "Not enough data")
  return data.take size

/-- `data_fetcher::consume`; both of its branches drop what there is. -/
def consume (sz : ℕ) : Reader Unit := modify (·.drop sz)

/-- The body deserializers work on a span of their own and leave the caller's alone. -/
def onSpan {α : Type} (size : ℕ) (p : Reader α) : Reader α := do
  let span ← cspanN size
  let (a, _) ← (p.run span : Except Fault (α × Bytes))
  return a

/-- The loop of `fixed_int::deserialize`, before the result is narrowed to `T`. -/
def fixedIntValue (data : Bytes) : ℕ := data.foldl (fun value b => value * 256 + b.toNat) 0

/-- The loop of `fixed_int::serialize` with `size` bytes still to be written. -/
def fixedIntBytes : ℕ → ℕ → Bytes
  | 0, _ => []
  | size + 1, value => UInt8.ofNat ((value >>> (8 * size)) % 256) :: fixedIntBytes size value

def fixedInt (size : ℕ) : Reader ℕ := do
  let data ← cspanN size
  consume size
  return fixedIntValue data

def fixedInt8 : Reader UInt8 := UInt8.ofNat <$> fixedInt 1
def fixedInt16 : Reader UInt16 := UInt16.ofNat <$> fixedInt 2
def fixedInt32 : Reader UInt32 := UInt32.ofNat <$> fixedInt 4

def writeInt8 (value : UInt8) : Writer := .emit (fixedIntBytes 1 value.toNat)
def writeInt16 (value : UInt16) : Writer := .emit (fixedIntBytes 2 value.toNat)
def writeInt32 (value : UInt32) : Writer := .emit (fixedIntBytes 4 value.toNat)

def varlenMax : UInt32 := 268435455

/-- `varlen_int::can_deserialize` -/
def canDeserialize (data : Bytes) : Bool := 4 ≤ data.length || data.any (fun b => b &&& 128 == 0)

/-- The loop of `varlen_int::deserialize`: the value and the number of bytes used. -/
def varlenLoop : Bytes → UInt32 → UInt32 → ℕ → Except Fault (UInt32 × ℕ)
  | [], _, _, _ => .error .outOfBounds
  | encodedByte :: iter, multiplier, value, used =>
      let value := value + (encodedByte &&& 127).toUInt32 * multiplier
      if multiplier > 128 * 128 * 128 then .error (.protocolError "data overflow")
      else if iter = [] ∧ encodedByte &&& 128 ≠ 0 then .error (.runtimeError "not enough data")
      else if encodedByte &&& 128 ≠ 0 then varlenLoop iter (multiplier * 128) value (used + 1)
      else .ok (value, used + 1)

def varlenInt : Reader UInt32 := do
  let (value, used) ← varlenLoop (← cspan) 1 0 0
  consume used
  return value

/-- The `do … while (val > 0)` of `varlen_int::serialize`; five rounds use up 32 bits. -/
def varlenBytes : ℕ → UInt32 → Bytes
  | 0, _ => []
  | rounds + 1, val =>
      if val / 128 > 0 then
        ((val % 128).toUInt8 ||| 0x80) :: varlenBytes rounds (val / 128)
      else [(val % 128).toUInt8]

def writeVarlen (value : UInt32) : Writer :=
  if value > varlenMax then
    .throw (.protocolError "value exceeding maximum allowed for varlen int")
  else .emit (varlenBytes 5 value)

/-- `string::deserialize` -/
def readString : Reader Bytes := do
  let stringSize ← fixedInt16
  let restOfData ← cspanN stringSize.toNat
  consume stringSize.toNat
  return restOfData

def writeString (data : Bytes) : Writer := writeInt16 (UInt16.ofNat data.length) ++ .emit data

/-- `binary::deserialize` -/
def readBinary : Reader Bytes := do
  let binSize ← fixedInt16
  let data ← cspan
  if data.length < binSize.toNat then
    throw (.protocolError "not enough bytes to convert to binary")
  consume binSize.toNat
  return data.take binSize.toNat

def writeBinary (data : Bytes) : Writer := writeInt16 (UInt16.ofNat data.length) ++ .emit data

structure KeyValuePair where
  key : Bytes
  value : Bytes
  deriving DecidableEq, Repr, Inhabited

def readPair : Reader KeyValuePair := do
  let key ← readString
  let value ← readString
  return ⟨key, value⟩

def writePair (data : KeyValuePair) : Writer := writeString data.key ++ writeString data.value

/-! ## Fixed-width integers -/

@[simp] theorem fixedIntBytes_length (size value : ℕ) :
    (fixedIntBytes size value).length = size := by
  induction size with
  | zero => rfl
  | succ size ih => simp [fixedIntBytes, ih]

theorem foldl_fixedIntBytes (size value acc : ℕ) :
    (fixedIntBytes size value).foldl (fun v b => v * 256 + b.toNat) acc =
      acc * 256 ^ size + value % 256 ^ size := by
  induction size generalizing acc with
  | zero => simp [fixedIntBytes, Nat.mod_one]
  | succ size ih =>
    have hb : (UInt8.ofNat ((value >>> (8 * size)) % 256)).toNat = value / 256 ^ size % 256 := by
      rw [UInt8.toNat_ofNat', Nat.shiftRight_eq_div_pow, pow_mul]
      norm_num
    rw [fixedIntBytes, List.foldl_cons, ih, hb, Nat.mod_pow_succ, pow_succ]
    ring

theorem fixedIntValue_bytes (size value : ℕ) :
    fixedIntValue (fixedIntBytes size value) = value % 256 ^ size := by
  rw [fixedIntValue, foldl_fixedIntBytes]
  simp

theorem foldl_value_lt (data : Bytes) (acc : ℕ) :
    data.foldl (fun v b => v * 256 + b.toNat) acc < (acc + 1) * 256 ^ data.length := by
  induction data generalizing acc with
  | nil => simp
  | cons b data ih =>
    have hb := b.toNat_lt
    rw [List.foldl_cons, List.length_cons, pow_succ]
    calc _ < (acc * 256 + b.toNat + 1) * 256 ^ data.length := ih _
      _ ≤ ((acc + 1) * 256) * 256 ^ data.length := Nat.mul_le_mul_right _ (by omega)
      _ = (acc + 1) * (256 ^ data.length * 256) := by ring

theorem fixedIntValue_lt (data : Bytes) : fixedIntValue data < 256 ^ data.length := by
  simpa [fixedIntValue] using foldl_value_lt data 0

/-- The digits are determined by the value, so every span of the right size is an encoding. -/
theorem bytes_fixedIntValue (data : Bytes) :
    fixedIntBytes data.length (fixedIntValue data) = data := by
  induction data using List.reverseRecOn with
  | nil => rfl
  | append_singleton data b ih =>
    have hb := b.toNat_lt
    have hv : fixedIntValue (data ++ [b]) = fixedIntValue data * 256 + b.toNat := by
      simp [fixedIntValue]
    have hs : ∀ size v, fixedIntBytes (size + 1) (v * 256 + b.toNat) =
        fixedIntBytes size v ++ [b] := by
      intro size v
      induction size with
      | zero =>
        simp only [fixedIntBytes, Nat.mul_zero, Nat.shiftRight_zero, List.nil_append,
          List.cons.injEq, and_true]
        rw [show (v * 256 + b.toNat) % 256 = b.toNat by omega, UInt8.ofNat_toNat]
      | succ size ih' =>
        rw [fixedIntBytes, ih', fixedIntBytes, List.cons_append]
        congr 3
        rw [Nat.shiftRight_eq_div_pow, Nat.shiftRight_eq_div_pow, Nat.mul_add, pow_add,
          Nat.mul_comm (2 ^ (8 * size)), ← Nat.div_div_eq_div_mul]
        congr 1
        omega
    rw [hv, List.length_append, List.length_singleton, hs, ih]

end Mqtt5.WirePrimitives
