import Mqtt5.WirePropertiesCodec

/-!
# The span of a property block

`properties::deserialize` cuts a span of the declared length off the buffer, and its loop
reads from that span until it is empty. It ends on every buffer that is not empty, takes the
declared bytes and no others, and cannot finish a property with bytes behind them.
-/
namespace Mqtt5.WireConfinement
open ByteParser WirePrimitives WireProperties

/-- One iteration of the loop on what is left of the span: it takes bytes, or it throws. -/
def Advances (span : Bytes) : Prop :=
  (∃ prop used left, readProperty.run span = .ok (prop, left) ∧ span = used ++ left ∧ used ≠ []) ∨
    ∃ e, readProperty.run span = .error e ∧ e.IsException

/-- The properties that the loop reads from a span. -/
def readSpan : Reader (List Property) := untilEmpty .unfinished readProperty

structure Confined (buffer : Bytes) : Prop where
  /-- Neither the fuel of the loop runs out nor is a byte outside the buffer read. -/
  throws : ∀ e, readProperties.run buffer = .error e → e.IsException
  consumed : ∀ props rest, readProperties.run buffer = .ok (props, rest) →
    ∃ length after, varlenInt.run buffer = .ok (length, after) ∧ length.toNat ≤ after.length ∧
      rest = after.drop length.toNat
  /-- The bytes that were taken give the same result before any other bytes. -/
  continues : ∀ props rest, readProperties.run buffer = .ok (props, rest) →
    ∃ used, buffer = used ++ rest ∧ ∀ more, readProperties.run (used ++ more) = .ok (props, more)
  /-- A property that begins in the span, behind complete ones, and ends outside of it. -/
  overrun : ∀ length after body props cut prop left,
    varlenInt.run buffer = .ok (length, after) → after.take length.toNat = body ++ cut →
    readSpan.run body = .ok (props, []) → cut ≠ [] →
    readProperty.run (cut ++ after.drop length.toNat) = .ok (prop, left) →
    left.length < (after.drop length.toNat).length →
    ∃ e, readProperties.run buffer = .error e ∧ e.IsException

theorem advances {span : Bytes} (hne : span ≠ []) : Advances span := by
  cases hrun : readProperty.run span with
  | error e => exact .inr ⟨e, hrun, readProperty_error hne hrun⟩
  | ok r =>
    obtain ⟨prop, left⟩ := r
    obtain ⟨used, hused, hword⟩ := (readProperty_parses _ _ _).mp hrun
    exact .inl ⟨prop, used, left, hrun, hused, propertyWord_ne_nil _ _ hword⟩

/-- The length field and the span, as the readers see them. -/
theorem span_of_run {buffer rest : Bytes} {props : List Property}
    (h : readProperties.run buffer = .ok (props, rest)) :
    ∃ length lengthEnc body, buffer = lengthEnc ++ body ++ rest ∧
      varlenInt.run buffer = .ok (length, body ++ rest) ∧ length.toNat = body.length ∧
      BlockWord (lengthEnc ++ body) props ∧ Star PropertyWord body props := by
  obtain ⟨_, rfl, lengthEnc, body, rfl, ⟨hword, hlen⟩, hstar⟩ :=
    (readProperties_parses _ _ _).mp h
  have hpow : 128 ^ lengthEnc.length ≤ 128 ^ 4 := Nat.pow_le_pow_right (by decide) hlen
  have hlt := hword.lt
  have hnat : (UInt32.ofNat body.length).toNat = body.length := by
    rw [UInt32.toNat_ofNat']
    norm_num at hpow ⊢
    omega
  refine ⟨UInt32.ofNat body.length, lengthEnc, body, rfl, ?_, hnat,
    ⟨lengthEnc, body, rfl, ⟨hword, hlen⟩, hstar⟩, hstar⟩
  rw [List.append_assoc]
  exact varlenInt_parses.decodes ⟨hnat.symm ▸ hword, hlen⟩ (body ++ rest)

theorem overrun_throws {buffer after body cut left : Bytes} {length : UInt32}
    {props : List Property} {prop : Property} (hlength : varlenInt.run buffer = .ok (length, after))
    (hspan : after.take length.toNat = body ++ cut) (hbody : readSpan.run body = .ok (props, []))
    (hcut : cut ≠ []) (hprop : readProperty.run (cut ++ after.drop length.toNat) = .ok (prop, left))
    (hleft : left.length < (after.drop length.toNat).length) :
    ∃ e, readProperties.run buffer = .error e ∧ e.IsException := by
  have hne : buffer ≠ [] := by
    rintro rfl
    cases hlength
  cases hrun : readProperties.run buffer with
  | error e => exact ⟨e, rfl, readProperties_error hne hrun⟩
  | ok r =>
    obtain ⟨read, rest⟩ := r
    obtain ⟨count, lengthEnc, span, rfl, hcount, hsize, -, hstar⟩ := span_of_run hrun
    -- the same length field, so the span that was read is `body ++ cut`
    rw [hlength, Except.ok.injEq, Prod.mk.injEq] at hcount
    obtain ⟨rfl, rfl⟩ := hcount
    rw [hsize, List.take_left] at hspan
    rw [hsize, List.drop_left] at hprop hleft
    subst hspan
    -- the property's bytes are `cut` and at least one byte behind the span
    obtain ⟨enc, henc, hword⟩ := (readProperty_parses _ _ _).mp hprop
    have hmore : ∃ more, enc = cut ++ more ∧ more ≠ [] := by
      obtain ⟨more, henc', hrest⟩ | ⟨more, hcut', hmore⟩ := List.append_eq_append_iff.mp henc
      · refine ⟨more, henc', ?_⟩
        rintro rfl
        rw [hrest, List.nil_append] at hleft
        omega
      · rw [hmore, List.length_append] at hleft
        omega
    obtain ⟨more, rfl, hmore⟩ := hmore
    have hbodyStar := ((untilEmpty_ok_iff readProperty_parses propertyWord_ne_nil _ _ _).mp hbody).2
    exact absurd hstar
      (hbodyStar.not_of_cut readProperty_parses propertyWord_ne_nil hword hcut hmore)

theorem confined {buffer : Bytes} (hne : buffer ≠ []) : Confined buffer := by
  constructor
  · intro e he
    exact readProperties_error hne he
  · intro props rest h
    obtain ⟨length, lengthEnc, body, -, hlength, hsize, -⟩ := span_of_run h
    refine ⟨length, body ++ rest, hlength, ?_, ?_⟩
    · rw [hsize, List.length_append]
      omega
    · rw [hsize, List.drop_left]
  · intro props rest h
    obtain ⟨-, lengthEnc, body, hbuffer, -, -, hblock, -⟩ := span_of_run h
    exact ⟨lengthEnc ++ body, hbuffer, readProperties_parses.decodes hblock⟩
  · intro length after body props cut prop left
    exact overrun_throws

theorem property_block_confined :
    (∀ span : Bytes, span ≠ [] → Advances span) ∧
    ∀ buffer : Bytes, buffer ≠ [] → Confined buffer := by
  refine ⟨?_, ?_⟩
  · intro span hne
    exact advances hne
  · intro buffer hne
    exact confined hne

/-- Three bytes are declared, and the five of the reason string would reach into the next
field. -/
theorem overrun_reasonString :
    Advances [31, 0, 5] ∧ Confined [3, 31, 0, 5, 104, 101, 108, 108, 111] ∧
    (readProperty.run [31, 0, 5, 104, 101, 108, 108, 111] =
      .ok (⟨31, .string [104, 101, 108, 108, 111]⟩, [])) ∧
    ∃ e, readProperties.run [3, 31, 0, 5, 104, 101, 108, 108, 111] = .error e ∧ e.IsException := by
  have hconfined := property_block_confined.2 [3, 31, 0, 5, 104, 101, 108, 108, 111] (by decide)
  have hprop : readProperty.run [31, 0, 5, 104, 101, 108, 108, 111] =
      .ok (⟨31, .string [104, 101, 108, 108, 111]⟩, []) := by decide
  refine ⟨property_block_confined.1 _ (by decide), hconfined, hprop, ?_⟩
  exact hconfined.overrun 3 [31, 0, 5, 104, 101, 108, 108, 111] [] [] [31, 0, 5] _ [] (by decide)
    (by decide) (by decide) (by decide) hprop (by decide)

end Mqtt5.WireConfinement
