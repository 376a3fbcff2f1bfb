import Mqtt5.WirePrimitivesCodec

/-!
# Fixed header

The type and flags byte and the remaining length, which a packet's constructor counts
by writing the body to a counter first.
-/
namespace Mqtt5.WireHeader
open ByteParser ByteWriter WirePrimitives

structure Header where
  typeFlags : UInt8
  remainingLength : UInt32
  deriving DecidableEq, Repr

namespace Header

def type (h : Header) : UInt8 := h.typeFlags >>> 4

def flags (h : Header) : UInt8 := h.typeFlags &&& 0x0F

def setType (h : Header) (t : UInt8) : Header := { h with typeFlags := h.flags + (t <<< 4) }

def setFlags (h : Header) (f : UInt8) : Header :=
  { h with typeFlags := (h.typeFlags &&& 0xf0) ||| (f &&& 0x0f) }

/-- The constructor `header(type_, flags_, packet)`; its members start out as `junk`,
and an exception of the body leaves no header. -/
def ofPacket (junk : Header) (type flags : UInt8) (body : Writer) : Except Fault Header :=
  match body.thrown with
  | some e => .error e
  | none =>
      .ok { (junk.setType type).setFlags flags with
        remainingLength := UInt32.ofNat body.tokens.length }

def serialize (h : Header) : Writer := writeInt8 h.typeFlags ++ writeVarlen h.remainingLength

/-- The transformer of `header::inplace_deserializer`. -/
def deserialize : Reader Header := do
  let data ← cspan
  let typeFlags ← (match data with
    | [] => .error .outOfBounds
    | b :: _ => .ok b : Except Fault UInt8)
  consume 1
  let remainingLength ← varlenInt
  return ⟨typeFlags, remainingLength⟩

end Header

/-- `serialize` of every packet with a body. -/
def writePacket (type flags : UInt8) (body : Writer) : Writer :=
  match Header.ofPacket ⟨0, 0⟩ type flags body with
  | .error e => .throw e
  | .ok header => header.serialize ++ body

/-- The type and flags byte of a packet. -/
def typeFlagsByte (type flags : UInt8) : UInt8 := (type <<< 4) ||| (flags &&& 0x0F)

theorem low_toNat (b : UInt8) : (b &&& 0x0F).toNat = b.toNat % 16 := by
  rw [UInt8.toNat_and]
  exact Nat.and_two_pow_sub_one_eq_mod b.toNat 4

theorem high_toNat (b : UInt8) : (b &&& 0xf0).toNat = b.toNat / 16 * 16 := by
  have hall : ∀ n < 256, n &&& 0xf0 = n / 16 * 16 := by decide +kernel
  rw [UInt8.toNat_and]
  exact hall b.toNat b.toNat_lt

theorem shift_toNat (b : UInt8) : (b <<< 4).toNat = b.toNat % 16 * 16 := by
  rw [UInt8.toNat_shiftLeft, Nat.shiftLeft_eq]
  change b.toNat * 16 % 256 = _
  omega

theorem typeFlagsByte_toNat (type flags : UInt8) :
    (typeFlagsByte type flags).toNat = type.toNat % 16 * 16 + flags.toNat % 16 := by
  rw [typeFlagsByte, UInt8.toNat_or, shift_toNat, low_toNat, Nat.mul_comm]
  exact (Nat.two_pow_add_eq_or_of_lt (i := 4) (by omega) _).symm

/-- Whatever the header's members held before, both halves of the byte are set. -/
theorem setFlags_setType (junk : Header) (type flags : UInt8) :
    ((junk.setType type).setFlags flags).typeFlags = typeFlagsByte type flags := by
  have hhigh : (junk.flags + (type <<< 4)) &&& (0xf0 : UInt8) = type <<< 4 := by
    rw [← UInt8.toNat_inj, high_toNat, UInt8.toNat_add, shift_toNat, Header.flags, low_toNat]
    omega
  change ((junk.flags + (type <<< 4)) &&& 0xf0) ||| (flags &&& 0x0f) = _
  rw [hhigh]
  rfl

theorem Header.ofPacket_emit (junk : Header) (type flags : UInt8) (zs : Bytes) :
    Header.ofPacket junk type flags (.emit zs) =
      .ok ⟨typeFlagsByte type flags, UInt32.ofNat zs.length⟩ := by
  rw [← setFlags_setType junk]
  rfl

theorem typeFlagsByte_type {type : UInt8} (h : type.toNat < 16) (flags : UInt8) :
    typeFlagsByte type flags >>> 4 = type := by
  rw [← UInt8.toNat_inj, UInt8.toNat_shiftRight, typeFlagsByte_toNat, Nat.shiftRight_eq_div_pow]
  change _ / 16 = _
  omega

theorem typeFlagsByte_flags (type flags : UInt8) :
    typeFlagsByte type flags &&& 0x0F = flags &&& 0x0F := by
  rw [← UInt8.toNat_inj, low_toNat, low_toNat, typeFlagsByte_toNat]
  omega

/-- A header is its type and flags byte and any accepted encoding of the length. -/
theorem Header.deserialize_parses :
    Parses Header.deserialize (fun enc h => ∃ lengthEnc, enc = h.typeFlags :: lengthEnc ∧
      Base128.Word lengthEnc h.remainingLength.toNat ∧ lengthEnc.length ≤ 4) := by
  intro xs h rest
  rw [Header.deserialize, run_bind_of_ok (run_cspan xs)]
  cases xs with
  | nil =>
    constructor
    · intro hr
      cases hr
    · rintro ⟨_, he, lengthEnc, rfl, -⟩
      cases he
  | cons b xs =>
    change ((do let len ← varlenInt; return Header.mk b len : Reader Header).run xs = _) ↔ _
    have hp := varlenInt_parses.bind fun len => Parses.pure (Header.mk b len)
    rw [hp xs h rest]
    constructor
    · rintro ⟨_, rfl, lengthEnc, len, _, rfl, hlen, rfl, rfl⟩
      exact ⟨b :: lengthEnc, by simp, lengthEnc, rfl, hlen⟩
    · rintro ⟨_, he, lengthEnc, rfl, hlen⟩
      simp only [List.cons_append, List.cons.injEq] at he
      obtain ⟨rfl, rfl⟩ := he
      exact ⟨lengthEnc, rfl, lengthEnc, h.remainingLength, [], by simp, hlen, rfl, rfl⟩

theorem body_of_writePacket {type flags : UInt8} {body : Writer} {frame : Bytes}
    (h : writePacket type flags body = .emit frame) : ∃ zs, body = .emit zs := by
  unfold writePacket at h
  rcases body with ⟨zs, _ | e⟩
  · exact ⟨zs, rfl⟩
  · cases h

/-- A body that is written completely follows a header with its 32-bit count. -/
theorem writePacket_of_emit (type flags : UInt8) (zs : Bytes) :
    writePacket type flags (.emit zs) =
      Header.serialize ⟨typeFlagsByte type flags, UInt32.ofNat zs.length⟩ ++ .emit zs := by
  rw [writePacket, Header.ofPacket_emit]

/-- A packet that is written completely is a header, with the body's length in it, and
the body. -/
theorem writePacket_emit {type flags : UInt8} {body : Writer} {frame : Bytes}
    (h : writePacket type flags body = .emit frame) (hlen : frame.length < 2 ^ 32) :
    ∃ zs, body = .emit zs ∧ ∀ rest, Header.deserialize.run (frame ++ rest) =
      .ok (⟨typeFlagsByte type flags, UInt32.ofNat zs.length⟩, zs ++ rest) ∧
      zs.length < 2 ^ 32 := by
  obtain ⟨zs, rfl⟩ := body_of_writePacket h
  rw [writePacket_of_emit] at h
  obtain ⟨hs, _, hx, hy, rfl⟩ := Written.append_eq_emit.mp h
  cases hy
  obtain ⟨x, y, hx₁, hx₂, rfl⟩ := Written.append_eq_emit.mp hx
  rw [writeInt8_eq] at hx₁
  rw [writeVarlen_eq] at hx₂
  split_ifs at hx₂ with hn
  · cases hx₁
    cases hx₂
    refine ⟨zs, rfl, fun rest => ⟨?_, by simp at hlen; omega⟩⟩
    rw [List.append_assoc]
    exact Header.deserialize_parses.decodes ⟨_, rfl, digits_varlen hn⟩ _
  · cases hx₂

/-- A body that a length field can count is written completely. -/
theorem writePacket_emits (type flags : UInt8) {zs : Bytes} (h : zs.length ≤ 268435455) :
    ∃ frame, writePacket type flags (.emit zs) = .emit frame := by
  have hsize : (UInt32.ofNat zs.length).toNat ≤ 268435455 := by
    rw [UInt32.toNat_ofNat']
    omega
  rw [writePacket_of_emit, Header.serialize, writeInt8_eq, writeVarlen_eq, if_pos hsize]
  exact ⟨_, rfl⟩

end Mqtt5.WireHeader
