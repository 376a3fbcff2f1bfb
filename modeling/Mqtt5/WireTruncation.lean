import Mqtt5.WireLimits

/-!
# Length fields that are too short

The 16-bit length of a string or of binary data is a cast, and the lengths of a property
block and of a packet are 32-bit counts, of which only the encoder of variable byte integers
checks the range.
-/
namespace Mqtt5.WireTruncation
open ByteParser ByteWriter WirePrimitives WireProperties WireHeader WirePublish WireConnect
open WireSubscribe WireControlPacket WireLimits

/-- The writer throws, or what it hands over is read as `a` and followed by nothing of it. -/
def ReadBack {α : Type} (w : Writer) (p : Reader α) (a : α) : Prop :=
  w.thrown.isSome ∨ ∃ enc, w = .emit enc ∧ Decodes p enc a

theorem readBack_emit {α : Type} {p : Reader α} {W : Bytes → α → Prop} (h : Parses p W)
    {enc : Bytes} {a : α} : ReadBack (.emit enc) p a ↔ W enc a := by
  constructor
  · intro back
    obtain thrown | ⟨_, same, decodes⟩ := back
    · cases thrown
    · cases same
      exact h.decodes_iff.mp decodes
  · intro word
    exact .inr ⟨enc, rfl, h.decodes word⟩

/-! ## Strings, binary data and pairs -/

/-- The length field as it is written, whatever the size. -/
def cutBytes (data : Bytes) : Bytes := fixedIntBytes 2 (data.length % 65536) ++ data

theorem writeString_cut (data : Bytes) : writeString data = .emit (cutBytes data) := by
  rw [writeString, writeInt16, UInt16.toNat_ofNat']
  rfl

theorem cutBytes_eq {data : Bytes} (h : Sized data) : cutBytes data = sizedBytes data := by
  rw [cutBytes, Nat.mod_eq_of_lt h, sizedBytes]

theorem string_readBack (data : Bytes) :
    ReadBack (writeString data) readString data ↔ Sized data := by
  rw [writeString_cut, readBack_emit readString_parses]
  exact ⟨fun h => h.2, fun h => ⟨cutBytes_eq h, h⟩⟩

theorem binary_readBack (data : Bytes) :
    ReadBack (writeBinary data) readBinary data ↔ Sized data := by
  change ReadBack (writeString data) readBinary data ↔ Sized data
  rw [writeString_cut, readBack_emit readBinary_parses]
  exact ⟨fun h => h.2, fun h => ⟨cutBytes_eq h, h⟩⟩

theorem pair_readBack (data : KeyValuePair) :
    ReadBack (writePair data) readPair data ↔ data.Sized := by
  rw [writePair, writeString_cut, writeString_cut, Written.emit_append_emit,
    readBack_emit readPair_parses]
  constructor
  · exact fun h => h.2
  · intro h
    have key := cutBytes_eq h.1
    have value := cutBytes_eq h.2
    exact ⟨by rw [key, value, pairBytes], h⟩

/-! ## Property blocks -/

/-- The variable byte integers of the property are in range. -/
def Writable (prop : Property) : Prop :=
  prop.identifier.toNat ≤ maxLength ∧ ∀ v, prop.value = .varlen v → v.toNat ≤ maxLength

theorem writeVarlen_thrown {v : UInt32} (h : ¬v.toNat ≤ maxLength) :
    (writeVarlen v).thrown.isSome := by
  have hmax : ¬v.toNat ≤ 268435455 := h
  rw [writeVarlen_eq, if_neg hmax]
  rfl

theorem cutBytes_length (data : Bytes) : (cutBytes data).length = stringSize data := by
  simp [cutBytes, stringSize]

theorem writeValue_emit {v : Value} (h : ∀ n, v = .varlen n → n.toNat ≤ maxLength) :
    ∃ zs, writeValue v = .emit zs ∧ zs.length = valueSize v := by
  cases v with
  | byte v => exact ⟨_, rfl, by simp [valueSize]⟩
  | int16 v => exact ⟨_, rfl, by simp [valueSize]⟩
  | int32 v => exact ⟨_, rfl, by simp [valueSize]⟩
  | varlen v => exact ⟨_, writeVarlen_emit (h v rfl), rfl⟩
  | string v => exact ⟨_, writeString_cut v, cutBytes_length v⟩
  | binary v => exact ⟨_, writeString_cut v, cutBytes_length v⟩
  | pair v =>
    refine ⟨cutBytes v.key ++ cutBytes v.value, ?_, ?_⟩
    · rw [writeValue, writePair, writeString_cut, writeString_cut, Written.emit_append_emit]
    · rw [List.length_append, cutBytes_length, cutBytes_length, valueSize]

theorem writeProperty_emit {prop : Property} (h : Writable prop) :
    ∃ zs, writeProperty prop = .emit zs ∧ zs.length = propertySize prop := by
  obtain ⟨zs, hzs, hlen⟩ := writeValue_emit h.2
  refine ⟨Base128.digits prop.identifier.toNat ++ zs, ?_, ?_⟩
  · rw [writeProperty, writeVarlen_emit h.1, hzs, Written.emit_append_emit]
  · rw [List.length_append, hlen, propertySize, varlenSize]

theorem forEach_emit {α : Type} {f : α → Writer} {size : α → ℕ} {as : List α}
    (h : ∀ a ∈ as, ∃ zs, f a = .emit zs ∧ zs.length = size a) :
    ∃ zs, Written.forEach f as = .emit zs ∧ zs.length = (as.map size).sum := by
  induction as with
  | nil => exact ⟨[], rfl, rfl⟩
  | cons a as ih =>
    obtain ⟨xs, hxs, hx⟩ := h a List.mem_cons_self
    obtain ⟨ys, hys, hy⟩ := ih fun b hb => h b (List.mem_cons_of_mem a hb)
    refine ⟨xs ++ ys, ?_, ?_⟩
    · rw [Written.forEach_cons, hxs, hys, Written.emit_append_emit]
    · rw [List.length_append, hx, hy, List.map_cons, List.sum_cons]

theorem writeProperty_thrown {prop : Property} (h : ¬Writable prop) :
    (writeProperty prop).thrown.isSome := by
  by_cases hid : prop.identifier.toNat ≤ maxLength
  · have hvalue : ∃ v, prop.value = .varlen v ∧ ¬v.toNat ≤ maxLength := by
      by_contra none
      push Not at none
      exact h ⟨hid, none⟩
    obtain ⟨v, same, large⟩ := hvalue
    apply Written.thrown_append_right
    rw [same]
    exact writeVarlen_thrown large
  · exact Written.thrown_append_left (writeVarlen_thrown hid) _

theorem star_forall {W : Bytes → Property → Prop} {zs : Bytes} {props : List Property}
    (h : Star W zs props) : ∀ p ∈ props, ∃ enc, W enc p := by
  induction h with
  | nil => simp
  | cons head _ ih => exact List.forall_mem_cons.mpr ⟨⟨_, head⟩, ih⟩

theorem propertyWord_wellTyped {enc : Bytes} {prop : Property} (h : PropertyWord enc prop) :
    prop.WellTyped := by
  obtain ⟨_, _, -, -, kind, word⟩ := h
  refine ⟨kind, ?_⟩
  cases hvalue : prop.value with
  | string v | binary v | pair v =>
    rw [hvalue] at word
    exact word.2
  | _ => trivial

theorem digits_short {m : ℕ} (h : m ≤ maxLength) : (Base128.digits m).length ≤ 4 := by
  apply Base128.digits_length_le
  unfold maxLength at h
  norm_num
  omega

/-- Behind a length field, what follows is a block just when the field counts it. -/
theorem blockWord_iff {m : ℕ} {zs : Bytes} {props : List Property} (hm : m ≤ maxLength)
    (h : Written.forEach writeProperty props = .emit zs) :
    BlockWord (Base128.digits m ++ zs) props ↔
      zs.length = m ∧ ∀ p ∈ props, p.WellTyped := by
  have short := digits_short hm
  constructor
  · intro ⟨lengthEnc, body, same, ⟨count, _⟩, star⟩
    obtain ⟨-, length, rest⟩ := (Base128.digits_word m).append_inj count same
    subst rest
    refine ⟨length.symm, fun p hp => ?_⟩
    obtain ⟨enc, word⟩ := star_forall star p hp
    exact propertyWord_wellTyped word
  · intro ⟨length, typed⟩
    have count := Base128.digits_word m
    rw [← length] at count short
    rw [← length]
    exact ⟨_, zs, rfl, ⟨count, short⟩, writeProperty_forEach_star typed h⟩

/-- The 32-bit count of so many bytes is out of range, so that writing it throws. -/
def Overlong (n : ℕ) : Prop := maxLength < n % 2 ^ 32

theorem writeCount_thrown {n : ℕ} (h : Overlong n) :
    (writeVarlen (UInt32.ofNat n)).thrown.isSome := by
  apply writeVarlen_thrown
  rw [UInt32.toNat_ofNat']
  exact Nat.not_le.mpr h

theorem writeCount_emit {n : ℕ} (h : ¬Overlong n) :
    writeVarlen (UInt32.ofNat n) = .emit (Base128.digits (n % 2 ^ 32)) := by
  have hle : (UInt32.ofNat n).toNat ≤ maxLength := by
    rw [UInt32.toNat_ofNat']
    exact Nat.not_lt.mp h
  rw [writeVarlen_emit hle, UInt32.toNat_ofNat']

/-- A count that is written is right just when it has not wrapped. -/
theorem counts_iff {n : ℕ} (h : ¬Overlong n) : n = n % 2 ^ 32 ↔ n ≤ maxLength := by
  unfold Overlong at h
  unfold maxLength at *
  omega

theorem properties_readBack (props : List Property) :
    ReadBack (writeProperties props) readProperties props ↔
      ((∀ p ∈ props, Writable p) → Overlong (blockSize props) ∨
        blockSize props ≤ maxLength ∧ ∀ p ∈ props, p.WellTyped) := by
  by_cases writable : ∀ p ∈ props, Writable p
  · obtain ⟨zs, hzs, hlen⟩ : ∃ zs, Written.forEach writeProperty props = .emit zs ∧
        zs.length = blockSize props :=
      forEach_emit fun p hp => writeProperty_emit (writable p hp)
    rw [writeProperties_of_emit hzs, hlen]
    by_cases overlong : Overlong (blockSize props)
    · have thrown := Written.thrown_append_left (writeCount_thrown overlong) (.emit zs)
      exact iff_of_true (.inl thrown) fun _ => .inl overlong
    · have block := blockWord_iff (Nat.not_lt.mp overlong) hzs
      rw [writeCount_emit overlong, Written.emit_append_emit, readBack_emit readProperties_parses,
        block, hlen, counts_iff overlong]
      exact ⟨fun h _ => .inr h, fun h => (h writable).resolve_left overlong⟩
  · have thrown : (writeProperties props).thrown.isSome := by
      push Not at writable
      obtain ⟨p, hp, large⟩ := writable
      have dryRun := Written.thrown_forEach hp (writeProperty_thrown large)
      obtain ⟨e, he⟩ := Option.isSome_iff_exists.mp dryRun
      rw [writeProperties]
      simp only [he]
      rfl
    exact iff_of_true (.inl thrown) fun h => absurd h writable

/-! ## Packets -/

/-- The body that `serialize` puts behind the header; the pings have none. -/
def bodyOf : ControlPacket → Writer
  | .connect p => p.serializeBody
  | .connack p => p.serializeBody
  | .publish p => p.serializeBody
  | .puback p | .pubrec p | .pubrel p | .pubcomp p => p.serializeBody
  | .subscribe p => p.serializeBody
  | .suback p | .unsuback p => p.serializeBody
  | .unsubscribe p => p.serializeBody
  | .disconnect p => p.serializeBody
  | .pingreq | .pingresp => .emit []

theorem serialize_eq (packet : ControlPacket) :
    ∃ type flags, packet.serialize = writePacket type flags (bodyOf packet) := by
  cases packet with
  | pingreq => exact ⟨Pingreq.typeValue, 0, rfl⟩
  | pingresp => exact ⟨Pingresp.typeValue, 0, rfl⟩
  | _ => exact ⟨_, _, rfl⟩

/-- The writer throws, or it writes a header whose remaining length counts the body after it. -/
def Framed (w body : Writer) : Prop :=
  w.thrown.isSome ∨ ∃ enc header zs, body = .emit zs ∧ w = .emit (enc ++ zs) ∧
    Decodes Header.deserialize enc header ∧ header.remainingLength.toNat = zs.length

theorem header_emit {n : ℕ} (h : ¬Overlong n) (typeFlags : UInt8) :
    Header.serialize ⟨typeFlags, UInt32.ofNat n⟩ =
      .emit (typeFlags :: Base128.digits (n % 2 ^ 32)) := by
  rw [Header.serialize, writeInt8_eq, writeCount_emit h, Written.emit_append_emit]
  rfl

theorem header_decodes {n : ℕ} (h : ¬Overlong n) (typeFlags : UInt8) :
    Decodes Header.deserialize (typeFlags :: Base128.digits (n % 2 ^ 32))
      ⟨typeFlags, UInt32.ofNat n⟩ := by
  have count : (UInt32.ofNat n).toNat = n % 2 ^ 32 := UInt32.toNat_ofNat'
  have word := Base128.digits_word (n % 2 ^ 32)
  rw [← count] at word
  exact Header.deserialize_parses.decodes ⟨_, rfl, word, digits_short (Nat.not_lt.mp h)⟩

theorem writePacket_thrown {body : Writer} (h : body.thrown.isSome) (type flags : UInt8) :
    (writePacket type flags body).thrown.isSome := by
  obtain ⟨e, he⟩ := Option.isSome_iff_exists.mp h
  simp only [writePacket, Header.ofPacket, he]
  rfl

theorem framed_iff (type flags : UInt8) (body : Writer) :
    Framed (writePacket type flags body) body ↔
      ∀ zs, body = .emit zs → Overlong zs.length ∨ zs.length ≤ maxLength := by
  obtain thrown | ⟨zs, rfl⟩ := body.thrown_or_emit
  · apply iff_of_true (.inl (writePacket_thrown thrown type flags))
    intro zs hzs
    rw [hzs] at thrown
    cases thrown
  · have only : (∀ ys, (.emit zs : Writer) = .emit ys → Overlong ys.length ∨ ys.length ≤ maxLength) ↔
        Overlong zs.length ∨ zs.length ≤ maxLength := by
      constructor
      · exact fun h => h zs rfl
      · intro h ys hys
        cases hys
        exact h
    rw [only, writePacket_of_emit]
    by_cases overlong : Overlong zs.length
    · have thrown := Written.thrown_append_right
        (writeInt8 (typeFlagsByte type flags)) (writeCount_thrown overlong)
      exact iff_of_true (.inl (Written.thrown_append_left thrown (.emit zs))) (.inl overlong)
    · have decodes := header_decodes overlong (typeFlagsByte type flags)
      rw [or_iff_right overlong, ← counts_iff overlong, header_emit overlong,
        Written.emit_append_emit]
      constructor
      · intro framed
        obtain thrown | ⟨enc, header, ys, same, frame, read, count⟩ := framed
        · cases thrown
        · cases same
          have enc_eq := List.append_cancel_right (Written.mk.inj frame).1
          rw [← enc_eq] at read
          have header_eq := (read []).symm.trans (decodes [])
          cases header_eq
          rw [← UInt32.toNat_ofNat', count]
      · intro count
        refine .inr ⟨_, _, zs, rfl, rfl, decodes, ?_⟩
        rw [UInt32.toNat_ofNat', ← count]

/-- Every length field is the number of the bytes after it, or the encoder throws: of strings
and of binary data up to 65535 bytes; of a property block and of a packet unless their 32-bit
count wraps to one that is written. -/
theorem length_fields (data : Bytes) (pair : KeyValuePair) (props : List Property)
    (packet : ControlPacket) :
    (ReadBack (writeString data) readString data ↔ data.length < 65536) ∧
    (ReadBack (writeBinary data) readBinary data ↔ data.length < 65536) ∧
    (ReadBack (writePair pair) readPair pair ↔
      pair.key.length < 65536 ∧ pair.value.length < 65536) ∧
    (ReadBack (writeProperties props) readProperties props ↔
      ((∀ p ∈ props, Writable p) → Overlong (blockSize props) ∨
        blockSize props ≤ maxLength ∧ ∀ p ∈ props, p.WellTyped)) ∧
    (Framed packet.serialize (bodyOf packet) ↔
      ∀ zs, bodyOf packet = .emit zs → Overlong zs.length ∨ zs.length ≤ maxLength) := by
  have packets : Framed packet.serialize (bodyOf packet) ↔
      ∀ zs, bodyOf packet = .emit zs → Overlong zs.length ∨ zs.length ≤ maxLength := by
    obtain ⟨type, flags, serialized⟩ := serialize_eq packet
    rw [serialized]
    exact framed_iff type flags (bodyOf packet)
  exact ⟨string_readBack data, binary_readBack data, pair_readBack pair, properties_readBack props,
    packets⟩

/-- A string of 65536 bytes is written behind the length 0, and read as an empty one. -/
theorem string_length_wraps :
    writeString (List.replicate 65536 97) = .emit (0 :: 0 :: List.replicate 65536 97) ∧
      Decodes readString [0, 0] [] ∧
      ¬ReadBack (writeString (List.replicate 65536 97)) readString (List.replicate 65536 97) := by
  have written := writeString_cut (List.replicate 65536 97)
  rw [cutBytes, List.length_replicate] at written
  have empty : Decodes readString [0, 0] [] := readString_parses.decodes ⟨rfl, by decide⟩
  refine ⟨written, empty, ?_⟩
  rw [string_readBack, Sized, List.length_replicate]
  decide

end Mqtt5.WireTruncation
