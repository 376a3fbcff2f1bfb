import Mqtt5.WireTruncation

/-!
# Blocks built by `add_property`

`add_property` keeps a list with a key for each entry, in which only user properties may be
repeated. What a run of calls leaves is determined by the calls, and a block of properties
whose values have the types of their identifiers is read back from what it is written as.
-/
namespace Mqtt5.WirePropertyBlocks
open ByteParser ByteWriter WirePrimitives WireProperties WireLimits WireTruncation

/-- What a block keeps of the calls that built it. -/
structure Keeps (calls block : List Property) : Prop where
  once : block.Pairwise fun p q => p.identifier = 38 ∨ p.identifier ≠ q.identifier
  last : ∀ p ∈ block, p.identifier ≠ 38 →
    calls.reverse.find? (fun q => q.identifier = p.identifier) = some p
  positions : block.map Property.identifier =
    KeyedList.firsts Repeats (calls.map Property.identifier)
  users : block.filter (fun p => p.identifier = 38) = calls.filter fun p => p.identifier = 38

theorem keeps_foldl (calls : List Property) : Keeps calls (calls.foldl addProperty []) := by
  rw [foldl_addProperty_eq]
  constructor
  · have hdistinct : KeyedList.Distinct Property.identifier Repeats
        (KeyedList.putAll Property.identifier Repeats calls) := KeyedList.distinct_putAll calls
    exact hdistinct
  · intro p hp hid
    have hnot : ¬ Repeats p.identifier := hid
    exact KeyedList.last_of_mem_putAll hp hnot
  · exact KeyedList.map_key_putAll calls
  · have hfilter : (KeyedList.putAll Property.identifier Repeats calls).filter
        (fun p => Repeats p.identifier) = calls.filter fun p => Repeats p.identifier :=
      KeyedList.filter_putAll calls
    exact hfilter

/-- What length fields of two bytes and of a block can count. -/
structure WithinLimits (block : List Property) : Prop where
  values : ∀ p ∈ block, p.value.Sized
  size : blockSize block ≤ maxLength

/-- The value has the type that `activate_id` selects for the low byte of the identifier,
which is in the range of `varlen_int`. -/
structure Fresh (prop : Property) : Prop where
  kind : prop.value.kind = selectedKind prop.identifier
  identifier : prop.identifier.toNat ≤ maxLength

theorem Fresh.writable {prop : Property} (h : Fresh prop) : Writable prop := by
  refine ⟨h.identifier, fun v hv => ?_⟩
  have hkind := h.kind
  rw [hv] at hkind
  exact absurd hkind.symm (selectedKind_ne_varlen prop.identifier)

theorem block_round_trip {block : List Property} (hfresh : ∀ p ∈ block, Fresh p)
    (h : WithinLimits block) :
    ∃ enc, writeProperties block = .emit enc ∧ Decodes readProperties enc block := by
  obtain ⟨zs, hzs, hlen⟩ : ∃ zs, Written.forEach writeProperty block = .emit zs ∧
      zs.length = blockSize block :=
    forEach_emit fun p hp => writeProperty_emit (hfresh p hp).writable
  have hmax : zs.length ≤ maxLength := hlen ▸ h.size
  have hnat : (UInt32.ofNat zs.length).toNat = zs.length := toNat_ofNat (lt_of_le_maxLength hmax)
  have hcount : writeVarlen (UInt32.ofNat zs.length) = .emit (Base128.digits zs.length) := by
    rw [writeVarlen_emit (by rw [hnat]; exact hmax), hnat]
  have hblock : BlockWord (Base128.digits zs.length ++ zs) block :=
    (blockWord_iff hmax hzs).mpr ⟨rfl, fun p hp => ⟨(hfresh p hp).kind, h.values p hp⟩⟩
  refine ⟨Base128.digits zs.length ++ zs, ?_, readProperties_parses.decodes hblock⟩
  rw [writeProperties_of_emit hzs, hcount, Written.emit_append_emit]

theorem property_block (calls : List Property) :
    Keeps calls (calls.foldl addProperty []) ∧
    ((∀ p ∈ calls, Fresh p) → WithinLimits (calls.foldl addProperty []) →
      ∃ enc, writeProperties (calls.foldl addProperty []) = .emit enc ∧
        ∀ suffix, readProperties.run (enc ++ suffix) =
          .ok (calls.foldl addProperty [], suffix)) := by
  refine ⟨keeps_foldl calls, fun hfresh hlimits => ?_⟩
  have hkept : ∀ p ∈ calls.foldl addProperty [], Fresh p := by
    intro p hp
    rw [foldl_addProperty_eq] at hp
    exact hfresh p (KeyedList.mem_putAll hp)
  exact block_round_trip hkept hlimits

/-- Identifier 294 has the low byte of a user property, but it is not repeated. -/
def someCalls : List Property :=
  [⟨1, .byte 0⟩, ⟨38, .pair ⟨[107], [1]⟩⟩, ⟨294, .pair ⟨[107], [2]⟩⟩, ⟨1, .byte 1⟩,
    ⟨38, .pair ⟨[107], [3]⟩⟩, ⟨294, .pair ⟨[107], [4]⟩⟩, ⟨200, .byte 5⟩]

theorem property_block_someCalls :
    someCalls.foldl addProperty [] =
      [⟨1, .byte 1⟩, ⟨38, .pair ⟨[107], [1]⟩⟩, ⟨294, .pair ⟨[107], [4]⟩⟩,
        ⟨38, .pair ⟨[107], [3]⟩⟩, ⟨200, .byte 5⟩] ∧
    ∃ enc, writeProperties (someCalls.foldl addProperty []) = .emit enc ∧
      ∀ suffix, readProperties.run (enc ++ suffix) =
        .ok (someCalls.foldl addProperty [], suffix) := by
  have hblock : someCalls.foldl addProperty [] =
      [⟨1, .byte 1⟩, ⟨38, .pair ⟨[107], [1]⟩⟩, ⟨294, .pair ⟨[107], [4]⟩⟩,
        ⟨38, .pair ⟨[107], [3]⟩⟩, ⟨200, .byte 5⟩] := by decide
  have hfresh : ∀ p ∈ someCalls, p.value.kind = selectedKind p.identifier ∧
      p.identifier.toNat ≤ maxLength := by decide
  refine ⟨hblock, (property_block someCalls).2 (fun p hp => ⟨(hfresh p hp).1, (hfresh p hp).2⟩) ?_⟩
  rw [hblock]
  refine ⟨by decide, ?_⟩
  simp [blockSize, propertySize, valueSize, varlenSize, stringSize, Base128.digits, maxLength]

end Mqtt5.WirePropertyBlocks
