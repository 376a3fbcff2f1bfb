import Mqtt5.WireHeader
import Mqtt5.WireSections

/-!
# Sizes of encodings

A packet throws when it is written only because a length is too large to be counted. Bounds
on what its parts can take rule that out.
-/
namespace Mqtt5.WireSizes
open ByteWriter WirePrimitives WireProperties WireHeader

/-- The writer does not throw, and hands over at most `n` bytes. -/
def Emits (w : Writer) (n : ℕ) : Prop := ∃ zs, w = .emit zs ∧ zs.length ≤ n

theorem Emits.mono {w : Writer} {m n : ℕ} (h : Emits w m) (hle : m ≤ n) : Emits w n := by
  obtain ⟨zs, hw, hlen⟩ := h
  exact ⟨zs, hw, hlen.trans hle⟩

theorem Emits.append {w v : Writer} {m n : ℕ} (hw : Emits w m) (hv : Emits v n) :
    Emits (w ++ v) (m + n) := by
  obtain ⟨xs, rfl, hx⟩ := hw
  obtain ⟨ys, rfl, hy⟩ := hv
  refine ⟨xs ++ ys, rfl, ?_⟩
  rw [List.length_append]
  omega

theorem emits_nil : Emits (.emit []) 0 := ⟨[], rfl, le_rfl⟩

theorem emits_int8 (v : UInt8) : Emits (writeInt8 v) 1 := ⟨_, rfl, by simp⟩
theorem emits_int16 (v : UInt16) : Emits (writeInt16 v) 2 := ⟨_, rfl, by simp⟩
theorem emits_int32 (v : UInt32) : Emits (writeInt32 v) 4 := ⟨_, rfl, by simp⟩

theorem emits_varlen {v : UInt32} (h : v.toNat ≤ 268435455) : Emits (writeVarlen v) 4 := by
  refine ⟨Base128.digits v.toNat, ?_, (digits_varlen h).2⟩
  rw [writeVarlen_eq, if_pos h]

theorem length_sizedBytes {data : Bytes} (h : Sized data) : (sizedBytes data).length ≤ 65537 := by
  have hlen : data.length < 65536 := h
  rw [sizedBytes, List.length_append, fixedIntBytes_length]
  omega

theorem emits_string {data : Bytes} (h : Sized data) : Emits (writeString data) 65537 :=
  ⟨_, writeString_eq h, length_sizedBytes h⟩

theorem emits_binary {data : Bytes} (h : Sized data) : Emits (writeBinary data) 65537 :=
  ⟨_, writeBinary_eq h, length_sizedBytes h⟩

theorem emits_forEach {α : Type} {f : α → Writer} {n : ℕ} {as : List α}
    (h : ∀ a ∈ as, Emits (f a) n) : Emits (Written.forEach f as) (as.length * n) := by
  induction as with
  | nil => exact emits_nil.mono (Nat.zero_le _)
  | cons a as ih =>
    have hrest := ih fun b hb => h b (List.mem_cons_of_mem _ hb)
    apply ((h a List.mem_cons_self).append hrest).mono
    rw [List.length_cons, Nat.succ_mul, Nat.add_comm]

/-- No value is larger than a pair of strings. -/
theorem emits_value {v : Value} (h : v.Sized) (hkind : v.kind ≠ .varlen) :
    Emits (writeValue v) 131074 := by
  cases v with
  | byte v => exact (emits_int8 v).mono (by omega)
  | int16 v => exact (emits_int16 v).mono (by omega)
  | int32 v => exact (emits_int32 v).mono (by omega)
  | varlen v => exact absurd rfl hkind
  | string v => exact (emits_string h).mono (by omega)
  | binary v => exact (emits_binary h).mono (by omega)
  | pair v => exact ((emits_string h.1).append (emits_string h.2)).mono (by omega)

theorem emits_property {prop : Property} (h : prop.WellTyped)
    (hid : prop.identifier.toNat ≤ 268435455) : Emits (writeProperty prop) 131078 := by
  have hkind : prop.value.kind ≠ .varlen := by
    rw [h.kind]
    exact selectedKind_ne_varlen prop.identifier
  exact ((emits_varlen hid).append (emits_value h.sized hkind)).mono (by omega)

theorem emits_properties {props : List Property} (h : ∀ p ∈ props, p.WellTyped)
    (hid : ∀ p ∈ props, p.identifier.toNat ≤ 268435455)
    (hlen : props.length * 131078 ≤ 268435455) :
    Emits (writeProperties props) (4 + props.length * 131078) := by
  obtain ⟨zs, hzs, hle⟩ := emits_forEach fun p hp => emits_property (h p hp) (hid p hp)
  have hcount : (UInt32.ofNat zs.length).toNat ≤ 268435455 := by
    rw [UInt32.toNat_ofNat']
    omega
  rw [writeProperties_of_emit hzs]
  exact (emits_varlen hcount).append ⟨zs, rfl, hle⟩

/-- A section that adds few properties of its own, and no others, is written. -/
theorem emits_section {σ : Type} {S : PropertySection σ} {s : σ} (h : S.WellFormed s)
    (hfits : ∀ a ∈ S.adds s, a.present → a.Fits) (husers : (S.base s).userProperty = [])
    (hunknown : (S.base s).unknownProperties = []) (hlen : (S.adds s).length ≤ 2000) :
    Emits (S.serialize s) (4 + (S.adds s).length * 131078) := by
  have hblock : S.block s = presentProperties (S.adds s) := by
    rw [PropertySection.block, husers, hunknown, merged]
    simp [WireProperties.userProperties]
  have hle : (S.block s).length ≤ (S.adds s).length := by
    rw [hblock, presentProperties, List.length_map]
    exact List.length_filter_le _ _
  have hid : ∀ p ∈ S.block s, p.identifier.toNat ≤ 268435455 := by
    intro p hp
    rw [hblock] at hp
    obtain ⟨a, -, rfl⟩ := List.mem_map.mp hp
    have hlt := a.id.toNat_lt
    rw [made_identifier, UInt8.toNat_toUInt32]
    omega
  have hwrite : S.serialize s = writeProperties (S.block s) := by
    rw [PropertySection.serialize, PropertySection.build_eq h hfits]
    rfl
  rw [hwrite]
  exact (emits_properties (PropertySection.block_wellTyped h hfits) hid (by omega)).mono (by omega)

theorem emits_packet {body : Writer} {n : ℕ} (h : Emits body n) (hn : n ≤ 268435455)
    (type flags : UInt8) : Emits (writePacket type flags body) (n + 5) := by
  obtain ⟨zs, rfl, hlen⟩ := h
  have hcount : (UInt32.ofNat zs.length).toNat ≤ 268435455 := by
    rw [UInt32.toNat_ofNat']
    omega
  rw [writePacket_of_emit]
  exact (((emits_int8 _).append (emits_varlen hcount)).append ⟨zs, rfl, hlen⟩).mono (by omega)

end Mqtt5.WireSizes
