import Mathlib.Data.List.Nodup
import Mqtt5.KeyedList
import Mqtt5.WireProperties

/-!
# Property blocks on the wire

`BlockWord` is the language of `readProperties`. A block that is written without an
exception, from properties whose values have the type their identifier selects, is one
of its words; handling that block again is a fold over what was added to it. Adding itself
is putting into a list with keys.
-/
namespace Mqtt5.WireProperties
open ByteParser ByteWriter WirePrimitives

/-! ## Values -/

/-- What the length fields of a value can count. -/
def Value.Sized : Value → Prop
  | .string v => WirePrimitives.Sized v
  | .binary v => WirePrimitives.Sized v
  | .pair v => v.Sized
  | _ => True

instance : (v : Value) → Decidable v.Sized
  | .string v => inferInstanceAs (Decidable (WirePrimitives.Sized v))
  | .binary v => inferInstanceAs (Decidable (WirePrimitives.Sized v))
  | .pair v => inferInstanceAs (Decidable v.Sized)
  | .byte _ | .int16 _ | .int32 _ | .varlen _ => .isTrue trivial

/-- The words of a value; only a variable byte integer has several. -/
def ValueWord : Value → Bytes → Prop
  | .byte v, enc => enc = [v]
  | .int16 v, enc => enc = fixedIntBytes 2 v.toNat
  | .int32 v, enc => enc = fixedIntBytes 4 v.toNat
  | .varlen v, enc => Base128.Word enc v.toNat ∧ enc.length ≤ 4
  | .string v, enc => enc = sizedBytes v ∧ WirePrimitives.Sized v
  | .binary v, enc => enc = sizedBytes v ∧ WirePrimitives.Sized v
  | .pair v, enc => enc = pairBytes v ∧ v.Sized

theorem map_value_parses {α : Type} {p : Reader α} {W : Bytes → α → Prop} (h : Parses p W)
    {f : α → Value} {k : Kind} (hf : ∀ a, (f a).kind = k ∧ ∀ enc, ValueWord (f a) enc ↔ W enc a)
    (hs : ∀ v : Value, v.kind = k → ∃ a, v = f a) :
    Parses (f <$> p) (fun enc v => v.kind = k ∧ ValueWord v enc) := by
  refine (h.map f).congr fun enc v => ?_
  constructor
  · rintro ⟨a, hw, rfl⟩
    exact ⟨(hf a).1, ((hf a).2 enc).mpr hw⟩
  · rintro ⟨hk, hw⟩
    obtain ⟨a, rfl⟩ := hs v hk
    exact ⟨a, ((hf a).2 enc).mp hw, rfl⟩

theorem readValue_parses (k : Kind) :
    Parses (readValue k) (fun enc v => v.kind = k ∧ ValueWord v enc) := by
  cases k
  · exact map_value_parses fixedInt8_parses (fun _ => ⟨rfl, fun _ => Iff.rfl⟩)
      (by rintro ⟨⟩ h <;> cases h; exact ⟨_, rfl⟩)
  · exact map_value_parses fixedInt16_parses (fun _ => ⟨rfl, fun _ => Iff.rfl⟩)
      (by rintro ⟨⟩ h <;> cases h; exact ⟨_, rfl⟩)
  · exact map_value_parses fixedInt32_parses (fun _ => ⟨rfl, fun _ => Iff.rfl⟩)
      (by rintro ⟨⟩ h <;> cases h; exact ⟨_, rfl⟩)
  · exact map_value_parses varlenInt_parses (fun _ => ⟨rfl, fun _ => Iff.rfl⟩)
      (by rintro ⟨⟩ h <;> cases h; exact ⟨_, rfl⟩)
  · exact map_value_parses readString_parses (fun _ => ⟨rfl, fun _ => Iff.rfl⟩)
      (by rintro ⟨⟩ h <;> cases h; exact ⟨_, rfl⟩)
  · exact map_value_parses readBinary_parses (fun _ => ⟨rfl, fun _ => Iff.rfl⟩)
      (by rintro ⟨⟩ h <;> cases h; exact ⟨_, rfl⟩)
  · exact map_value_parses readPair_parses (fun _ => ⟨rfl, fun _ => Iff.rfl⟩)
      (by rintro ⟨⟩ h <;> cases h; exact ⟨_, rfl⟩)

/-- The table never selects a variable byte integer. -/
theorem selectedKind_ne_varlen (identifier : UInt32) : selectedKind identifier ≠ .varlen := by
  unfold selectedKind activatedKind
  split <;> simp

theorem readValue_throws {k : Kind} (h : k ≠ .varlen) : Throws (readValue k) := by
  cases k
  · exact fixedInt8_throws.map _
  · exact fixedInt16_throws.map _
  · exact fixedInt32_throws.map _
  · exact absurd rfl h
  · exact readString_throws.map _
  · exact readBinary_throws.map _
  · exact readPair_throws.map _

/-- A value that is written completely is written as one of its words. -/
theorem writeValue_word {v : Value} {zs : Bytes} (hs : v.Sized) (h : writeValue v = .emit zs) :
    ValueWord v zs := by
  cases v with
  | byte v => rw [writeValue, writeInt8_eq] at h; cases h; rfl
  | int16 v => cases h; rfl
  | int32 v => cases h; rfl
  | varlen v =>
    rw [writeValue, writeVarlen_eq] at h
    split_ifs at h with hv
    · cases h
      exact digits_varlen hv
    · cases h
  | string v => rw [writeValue, writeString_eq hs] at h; cases h; exact ⟨rfl, hs⟩
  | binary v => rw [writeValue, writeBinary_eq hs] at h; cases h; exact ⟨rfl, hs⟩
  | pair v => rw [writeValue, writePair_eq hs] at h; cases h; exact ⟨rfl, hs⟩

/-! ## Properties and blocks -/

def PropertyWord (enc : Bytes) (prop : Property) : Prop :=
  ∃ idEnc valueEnc, enc = idEnc ++ valueEnc ∧
    (Base128.Word idEnc prop.identifier.toNat ∧ idEnc.length ≤ 4) ∧
    prop.value.kind = selectedKind prop.identifier ∧ ValueWord prop.value valueEnc

/-- A length field and that many bytes of properties. -/
def BlockWord (enc : Bytes) (properties : List Property) : Prop :=
  ∃ lengthEnc body, enc = lengthEnc ++ body ∧
    (Base128.Word lengthEnc body.length ∧ lengthEnc.length ≤ 4) ∧
    Star PropertyWord body properties

theorem readProperty_parses : Parses readProperty PropertyWord := by
  refine (varlenInt_parses.bind fun identifier =>
    (readValue_parses (selectedKind identifier)).bind fun value =>
      Parses.pure (Property.mk identifier value)).congr fun enc prop => ?_
  constructor
  · rintro ⟨idEnc, identifier, _, rfl, hid, valueEnc, value, _, rfl, ⟨hk, hv⟩, rfl, rfl⟩
    exact ⟨idEnc, valueEnc, by simp, hid, hk, hv⟩
  · rintro ⟨idEnc, valueEnc, rfl, hid, hk, hv⟩
    exact ⟨idEnc, prop.identifier, valueEnc, rfl, hid, valueEnc, prop.value, [], by simp,
      ⟨hk, hv⟩, rfl, rfl⟩

theorem propertyWord_ne_nil (enc : Bytes) (prop : Property) (h : PropertyWord enc prop) :
    enc ≠ [] := by
  obtain ⟨idEnc, valueEnc, rfl, ⟨hid, -⟩, -⟩ := h
  simp [hid.ne_nil]

/-- Every round of the loop in `readProperties` takes at least one byte. -/
theorem readProperty_progress : Progress readProperty :=
  readProperty_parses.progress propertyWord_ne_nil

theorem readProperty_error {xs : Bytes} {e : Fault} (hne : xs ≠ [])
    (h : readProperty.run xs = .error e) : e.IsException := by
  rcases run_bind_error.mp h with h | ⟨identifier, mid, -, h⟩
  · exact varlenInt_error hne h
  · exact ((readValue_throws (selectedKind_ne_varlen identifier)).bind fun _ => .pure _) h

theorem readProperties_parses : Parses readProperties BlockWord := by
  intro xs properties rest
  have hstar : ∀ span rest, (untilEmpty Fault.unfinished readProperty).run span =
      .ok (properties, rest) ↔ rest = [] ∧ Star PropertyWord span properties := fun span =>
    untilEmpty_ok_iff readProperty_parses propertyWord_ne_nil span properties
  constructor
  · intro h
    obtain ⟨len, mid, h₁, ht⟩ := run_bind_ok.mp h
    obtain ⟨lengthEnc, rfl, hlen⟩ := (varlenInt_parses _ _ _).mp h₁
    obtain ⟨span, _, h₂, ht⟩ := run_bind_ok.mp ht
    rw [run_cspanN] at h₂
    split_ifs at h₂ with hsize
    cases h₂
    obtain ⟨⟨ps, r⟩, mid', h₃, ht⟩ := run_bind_ok.mp ht
    obtain ⟨hr, rfl⟩ := run_liftM_ok.mp h₃
    cases ht
    obtain ⟨rfl, hs⟩ := (hstar _ _).mp hr
    have htake : (mid.take len.toNat).length = len.toNat := by simp; omega
    refine ⟨lengthEnc ++ mid.take len.toNat, by simp, lengthEnc, mid.take len.toNat, rfl, ?_, hs⟩
    rw [htake]
    exact hlen
  · rintro ⟨_, rfl, lengthEnc, body, rfl, hlen, hs⟩
    have hlt : body.length < 2 ^ 32 := by
      have := hlen.1.lt
      have := Nat.pow_le_pow_right (n := 128) (by decide) hlen.2
      norm_num at this ⊢
      omega
    have htoNat : (UInt32.ofNat body.length).toNat = body.length := by
      rw [UInt32.toNat_ofNat', Nat.mod_eq_of_lt hlt]
    have h₁ : Decodes varlenInt lengthEnc (UInt32.ofNat body.length) :=
      varlenInt_parses.decodes (by rwa [htoNat])
    rw [List.append_assoc, readProperties, h₁.bind_run, htoNat,
      run_bind_of_ok (a := body) (m := body ++ rest) (by rw [run_cspanN]; simp)]
    rw [run_bind_of_ok (a := (properties, [])) (m := body ++ rest)
      (by rw [(hstar body []).mpr ⟨rfl, hs⟩]; rfl), run_bind_of_ok (run_consume _ _)]
    rw [List.drop_left]
    rfl

/-- A block that is due where the span ends is read outside of it. -/
theorem readProperties_nil : readProperties.run [] = .error .outOfBounds := rfl

theorem readProperties_error {xs : Bytes} {e : Fault} (hne : xs ≠ [])
    (h : readProperties.run xs = .error e) : e.IsException := by
  rcases run_bind_error.mp h with h | ⟨len, mid, -, h⟩
  · exact varlenInt_error hne h
  rcases run_bind_error.mp h with h | ⟨span, mid', -, h⟩
  · rw [run_cspanN] at h
    split_ifs at h
    cases h
    exact .runtimeError _
  rcases run_bind_error.mp h with h | ⟨ps, mid'', -, h⟩
  · have hr := run_liftM_error.mp h
    by_contra he
    exact untilEmpty_error readProperty_progress
      (fun x xs hx => he (readProperty_error (by simp) hx)) span hr
  · cases h

/-- The value has the type its identifier selects, and its length fields can count it. -/
structure Property.WellTyped (prop : Property) : Prop where
  kind : prop.value.kind = selectedKind prop.identifier
  sized : prop.value.Sized

instance (prop : Property) : Decidable prop.WellTyped :=
  decidable_of_iff (prop.value.kind = selectedKind prop.identifier ∧ prop.value.Sized)
    ⟨fun h => ⟨h.1, h.2⟩, fun h => ⟨h.kind, h.sized⟩⟩

theorem writeProperty_word {prop : Property} {zs : Bytes} (hw : prop.WellTyped)
    (h : writeProperty prop = .emit zs) : PropertyWord zs prop := by
  obtain ⟨xs, ys, hx, hy, rfl⟩ := Written.append_eq_emit.mp h
  rw [writeVarlen_eq] at hx
  split_ifs at hx with hid
  · cases hx
    exact ⟨_, ys, rfl, digits_varlen hid, hw.kind, writeValue_word hw.sized hy⟩
  · cases hx

theorem writeProperty_forEach_star {properties : List Property} {zs : Bytes}
    (hw : ∀ p ∈ properties, p.WellTyped)
    (h : Written.forEach writeProperty properties = .emit zs) : Star PropertyWord zs properties := by
  induction properties generalizing zs with
  | nil => cases h; exact .nil
  | cons p ps ih =>
    rw [Written.forEach_cons] at h
    obtain ⟨xs, ys, hx, hy, rfl⟩ := Written.append_eq_emit.mp h
    exact .cons (writeProperty_word (hw p (by simp)) hx) (ih (fun q hq => hw q (by simp [hq])) hy)

/-- A block whose properties are all written is their 32-bit count and these properties. -/
theorem writeProperties_of_emit {props : List Property} {zs : Bytes}
    (h : Written.forEach writeProperty props = .emit zs) :
    writeProperties props = writeVarlen (UInt32.ofNat zs.length) ++ .emit zs := by
  rw [writeProperties, h]
  rfl

theorem properties_of_writeProperties {props : List Property} {zs : Bytes}
    (h : writeProperties props = .emit zs) :
    ∃ ys, Written.forEach writeProperty props = .emit ys := by
  unfold writeProperties at h
  cases ht : (Written.forEach writeProperty props).thrown with
  | some e => simp only [ht] at h; cases h
  | none =>
    simp only [ht] at h
    obtain ⟨xs, ys, -, hy, -⟩ := Written.append_eq_emit.mp h
    exact ⟨ys, hy⟩

/-- While the frame has fewer than `2 ^ 32` bytes, no count of the dry run wraps. -/
theorem writeProperties_word {properties : List Property} {zs : Bytes}
    (hw : ∀ p ∈ properties, p.WellTyped) (h : writeProperties properties = .emit zs)
    (hlen : zs.length < 2 ^ 32) : BlockWord zs properties := by
  obtain ⟨ys, hys⟩ := properties_of_writeProperties h
  rw [writeProperties_of_emit hys] at h
  obtain ⟨xs, _, hx, hy, rfl⟩ := Written.append_eq_emit.mp h
  cases hy
  rw [writeVarlen_eq] at hx
  have hcount : (UInt32.ofNat ys.length).toNat = ys.length := by
    rw [UInt32.toNat_ofNat', Nat.mod_eq_of_lt (by simp at hlen; omega)]
  split_ifs at hx with hn
  · cases hx
    refine ⟨_, ys, rfl, ?_, writeProperty_forEach_star hw hys⟩
    have hd := digits_varlen hn
    rwa [hcount] at hd ⊢
  · cases hx

/-! ## Building a block -/

/-- The property an addition makes when its argument has the type of its identifier. -/
def MaybeAdd.made (add : MaybeAdd) : Property :=
  match Property.ofValue add.id add.value with
  | .ok prop => prop
  | .error _ => ⟨add.id.toUInt32, .byte 0⟩

def MaybeAdd.Fits (add : MaybeAdd) : Prop := Property.ofValue add.id add.value = .ok add.made

@[simp] theorem made_identifier (add : MaybeAdd) : add.made.identifier = add.id.toUInt32 := by
  unfold MaybeAdd.made Property.ofValue
  cases assignValue (selectedKind add.id.toUInt32) add.value <;> rfl

def presentProperties (adds : List MaybeAdd) : List Property :=
  (adds.filter (·.present)).map MaybeAdd.made

theorem addPresent_eq {adds : List MaybeAdd} (h : ∀ a ∈ adds, a.present → a.Fits)
    (props : List Property) :
    addPresent adds props = .ok ((presentProperties adds).foldl addProperty props) := by
  induction adds generalizing props with
  | nil => rfl
  | cons a adds ih =>
    rw [addPresent, List.foldlM_cons]
    cases hp : a.present with
    | false =>
      simp only [presentProperties, hp, List.filter_cons, Bool.false_eq_true, ↓reduceIte]
      exact ih (fun b hb => h b (by simp [hb])) props
    | true =>
      have hf : Property.ofValue a.id a.value = .ok a.made := h a (by simp) hp
      simp only [presentProperties, hp, hf, List.filter_cons, ↓reduceIte, List.map_cons,
        List.foldl_cons]
      exact ih (fun b hb => h b (by simp [hb])) (addProperty props a.made)

/-- An addition whose argument does not fit its identifier stops the build. -/
theorem addPresent_error {adds : List MaybeAdd} {a : MaybeAdd} (ha : a ∈ adds)
    (hp : a.present = true) {e : Fault} (he : Property.ofValue a.id a.value = .error e)
    (props : List Property) : ∃ e, addPresent adds props = .error e := by
  induction adds generalizing props with
  | nil => cases ha
  | cons b adds ih =>
    rw [addPresent, List.foldlM_cons]
    rcases List.mem_cons.mp ha with rfl | ha
    · simp only [hp, he, ↓reduceIte]
      exact ⟨e, rfl⟩
    · cases b.present with
      | false => exact ih ha props
      | true =>
        cases hb : Property.ofValue b.id b.value with
        | error e' => exact ⟨e', rfl⟩
        | ok p => exact ih ha (addProperty props p)

/-! ## Adding as putting into a list with keys -/

/-- `add_property` tests for the identifier of a user property. -/
def Repeats (identifier : UInt32) : Prop := identifier = 38

instance : DecidablePred Repeats := fun identifier => inferInstanceAs (Decidable (identifier = 38))

theorem replaceFirst_eq {ps : List Property} {prop : Property} (hid : prop.identifier ≠ 38)
    (h : ps.any (fun p => p.identifier == prop.identifier) = true) :
    addProperty.replaceFirst prop ps = KeyedList.put Property.identifier Repeats prop ps := by
  induction ps with
  | nil => cases h
  | cons p ps ih =>
    rw [addProperty.replaceFirst, KeyedList.put]
    by_cases hkey : p.identifier = prop.identifier
    · rw [if_pos hkey, if_pos ⟨hid, hkey⟩, hkey]
    · have htail : ps.any (fun p => p.identifier == prop.identifier) = true := by
        rw [List.any_cons, Bool.or_eq_true] at h
        exact h.resolve_left (by simpa using hkey)
      rw [if_neg hkey, if_neg (fun hc => hkey hc.2), ih htail]

theorem addProperty_eq (ps : List Property) (prop : Property) :
    addProperty ps prop = KeyedList.put Property.identifier Repeats prop ps := by
  rw [addProperty]
  split_ifs with hid hany
  · have huser : Repeats prop.identifier := hid
    exact (KeyedList.put_fresh (.inl huser)).symm
  · exact replaceFirst_eq hid hany
  · refine (KeyedList.put_fresh (.inr fun p hp hkey => hany ?_)).symm
    exact List.any_eq_true.mpr ⟨p, hp, beq_iff_eq.mpr hkey⟩

theorem addProperty_eq_put :
    addProperty = fun ps prop => KeyedList.put Property.identifier Repeats prop ps := by
  funext ps prop
  exact addProperty_eq ps prop

/-- The block after a run of calls, from an empty one. -/
theorem foldl_addProperty_eq (calls : List Property) :
    calls.foldl addProperty [] = KeyedList.putAll Property.identifier Repeats calls := by
  rw [KeyedList.putAll, addProperty_eq_put]

/-- Merging into a block whose identifiers do not occur among the new ones. -/
theorem foldl_addProperty_of_ne {ps rs : List Property}
    (h : ∀ r ∈ rs, r.identifier = 38 ∨ ∀ p ∈ ps, p.identifier ≠ r.identifier) :
    rs.foldl addProperty ps = ps ++ rs.foldl addProperty [] := by
  have hfresh : ∀ r ∈ rs, Repeats r.identifier ∨ ∀ p ∈ ps, p.identifier ≠ r.identifier := h
  have happend := KeyedList.foldl_put_append hfresh []
  rw [List.append_nil] at happend
  rw [addProperty_eq_put]
  exact happend

/-- Identifiers other than 38 are pairwise distinct, so nothing is merged. -/
def Mergeless (props : List Property) : Prop :=
  props.Pairwise fun p q => p.identifier = 38 ∨ p.identifier ≠ q.identifier

theorem foldl_addProperty_mergeless {ps : List Property} (h : Mergeless ps) :
    ps.foldl addProperty [] = ps := by
  have hdistinct : KeyedList.Distinct Property.identifier Repeats ps := h
  rw [foldl_addProperty_eq]
  exact KeyedList.putAll_of_distinct hdistinct

end Mqtt5.WireProperties
