import Mqtt5.WireControlPacket

/-!
# Reads outside the span

A body deserializer leaves its span only through `varlenInt`, and only where the length
of a property block is due at the very end of the body. `PropertyLengthMissing` says
where that is, for every type of packet.
-/
namespace Mqtt5.WireBounds
open ByteParser ByteWriter WirePrimitives WireProperties WireHeader WirePublish WireConnect
open WireSubscribe WireControlPacket

variable {α β σ : Type}

/-- The reader stops with something that is not an exception. -/
def Escapes (p : Reader α) (xs : Bytes) : Prop := ∃ e, p.run xs = .error e ∧ ¬ e.IsException

theorem Throws.not_escapes {p : Reader α} (h : Throws p) (xs : Bytes) : ¬ Escapes p xs := by
  rintro ⟨e, he, hne⟩
  exact hne (h he)

theorem escapes_map {p : Reader α} {f : α → β} {xs : Bytes} :
    Escapes (f <$> p) xs ↔ Escapes p xs :=
  exists_congr fun _ => and_congr_left' run_map_error

theorem escapes_bind {p : Reader α} {f : α → Reader β} {xs : Bytes} :
    Escapes (p >>= f) xs ↔
      Escapes p xs ∨ ∃ a mid, p.run xs = .ok (a, mid) ∧ Escapes (f a) mid := by
  constructor
  · rintro ⟨e, he, hne⟩
    rcases run_bind_error.mp he with he | ⟨a, mid, ha, he⟩
    · exact .inl ⟨e, he, hne⟩
    · exact .inr ⟨a, mid, ha, e, he, hne⟩
  · rintro (⟨e, he, hne⟩ | ⟨a, mid, ha, e, he, hne⟩)
    · exact ⟨e, run_bind_error.mpr (.inl he), hne⟩
    · exact ⟨e, run_bind_error.mpr (.inr ⟨a, mid, ha, he⟩), hne⟩

/-- Past a reader that stays inside, the rest of the span decides. -/
theorem escapes_bind_parses {p : Reader α} {f : α → Reader β} {W : Bytes → α → Prop} {xs : Bytes}
    (hp : Parses p W) (ht : Throws p) :
    Escapes (p >>= f) xs ↔ ∃ enc a mid, xs = enc ++ mid ∧ W enc a ∧ Escapes (f a) mid := by
  rw [escapes_bind, or_iff_right (Throws.not_escapes ht xs)]
  constructor
  · rintro ⟨a, mid, ha, he⟩
    obtain ⟨enc, rfl, hw⟩ := (hp _ _ _).mp ha
    exact ⟨enc, a, mid, rfl, hw, he⟩
  · rintro ⟨enc, a, mid, rfl, hw, he⟩
    exact ⟨a, mid, hp.decodes hw mid, he⟩

/-- Nothing that follows the reader leaves the span. -/
theorem escapes_bind_throws {p : Reader α} {f : α → Reader β} {xs : Bytes}
    (hf : ∀ a, Throws (f a)) : Escapes (p >>= f) xs ↔ Escapes p xs := by
  rw [escapes_bind, or_iff_left]
  rintro ⟨a, mid, -, he⟩
  exact Throws.not_escapes (hf a) mid he

theorem throws_cspan : Throws cspan := by
  intro xs e h
  cases h

theorem escapes_onSpan {p : Reader α} {size : ℕ} {xs : Bytes} (h : size = xs.length) :
    Escapes (onSpan size p) xs ↔ Escapes p xs := by
  have hspan : (cspanN size).run xs = .ok (xs, xs) := by rw [run_cspanN, h]; simp
  unfold Escapes
  rw [onSpan, run_bind_of_ok hspan]
  refine exists_congr fun e => and_congr_left' ?_
  rw [run_bind_error]
  cases p.run xs with
  | error e' =>
    change (Except.error e' = _ ∨ _) ↔ _
    simp
  | ok r =>
    constructor
    · rintro (h | ⟨_, _, _, h⟩) <;> cases h
    · intro h
      cases h

/-! ## Property sections -/

/-- Every failure is an exception. -/
def Raises (r : Except Fault α) : Prop := ∀ ⦃e⦄, r = .error e → e.IsException

theorem raises_ok (a : α) : Raises (.ok a) := by
  intro e h
  cases h

theorem Raises.bind {r : Except Fault α} {f : α → Except Fault β} (hr : Raises r)
    (hf : ∀ a, Raises (f a)) : Raises (r >>= f) := by
  intro e h
  cases r with
  | error e' => cases h; exact hr rfl
  | ok a => exact hf a h

theorem raises_foldlM {handle : σ → Property → Except Fault σ} (h : ∀ s p, Raises (handle s p))
    (props : List Property) (s : σ) : Raises (props.foldlM handle s) := by
  induction props generalizing s with
  | nil => exact raises_ok s
  | cons p props ih => exact (h s p).bind ih

theorem raises_mismatched : Raises (.error mismatchedGet : Except Fault α) := by
  rintro _ ⟨⟩
  exact .runtimeError _

theorem raises_asIntegral (v : Value) : Raises v.asIntegral := by
  cases v <;> first | exact raises_ok _ | exact raises_mismatched

theorem raises_asString (v : Value) : Raises v.asString := by
  cases v <;> first | exact raises_ok _ | exact raises_mismatched

theorem raises_asBinary (v : Value) : Raises v.asBinary := by
  cases v <;> first | exact raises_ok _ | exact raises_mismatched

theorem raises_handleProperty (base : PropertiesBase) (prop : Property) :
    Raises (base.handleProperty prop) := by
  rw [PropertiesBase.handleProperty]
  split
  · refine Raises.bind ?_ fun _ => raises_ok _
    cases prop.value <;> first | exact raises_ok _ | exact raises_mismatched
  · exact raises_ok _

/-- One member of a section after another: a branch of `handle` for each. -/
theorem raises_member {c : Prop} [Decidable c] {r : Except Fault α} {f : α → σ}
    {rest : Except Fault σ} (hr : Raises r) (h : Raises rest) :
    Raises (if c then r >>= fun a => pure (f a) else rest) := by
  split
  · exact hr.bind fun _ => raises_ok _
  · exact h

theorem raises_connectConnack (s : ConnectConnackProperties) (p : Property) :
    Raises (s.handle p) := by
  iterate 6 refine raises_member (by first
    | exact raises_asString _ | exact raises_asBinary _ | exact raises_asIntegral _) ?_
  exact (raises_handleProperty _ p).bind fun _ => raises_ok _

theorem raises_connect (s : ConnectProperties) (p : Property) : Raises (s.handle p) :=
  raises_member (raises_asIntegral _) <| raises_member (raises_asIntegral _) <|
    (raises_connectConnack _ p).bind fun _ => raises_ok _

/-- The length of a block is read before the end of the span is looked for. -/
theorem escapes_readHandled {dflt : σ} {handle : σ → Property → Except Fault σ}
    (h : ∀ s p, Raises (handle s p)) {xs : Bytes} :
    Escapes (readHandled dflt handle) xs ↔ xs = [] := by
  have hfold : ∀ props : List Property,
      Throws (liftM (props.foldlM handle dflt) : Reader σ) := by
    intro props xs e he
    exact raises_foldlM h props dflt (run_liftM_error.mp he)
  rw [readHandled, escapes_bind_throws hfold]
  constructor
  · rintro ⟨e, he, hne⟩
    by_contra hxs
    exact hne (readProperties_error hxs he)
  · rintro rfl
    refine ⟨.outOfBounds, readProperties_nil, ?_⟩
    intro h
    cases h

theorem readHandled_parses {dflt : σ} {handle : σ → Property → Except Fault σ} :
    Parses (readHandled dflt handle)
      (fun enc s => ∃ props, BlockWord enc props ∧ props.foldlM handle dflt = .ok s) := by
  intro xs s rest
  rw [readHandled, run_bind_ok]
  constructor
  · rintro ⟨props, mid, hp, hs⟩
    obtain ⟨enc, rfl, hw⟩ := (readProperties_parses _ _ _).mp hp
    obtain ⟨hr, rfl⟩ := run_liftM_ok.mp hs
    exact ⟨enc, rfl, props, hw, hr⟩
  · rintro ⟨enc, rfl, props, hw, hr⟩
    refine ⟨props, rest, readProperties_parses.decodes hw rest, ?_⟩
    rw [hr]
    rfl

theorem raises_section {dflt : σ} {handle : σ → Property → Except Fault σ}
    (h : ∀ s p, Raises (handle s p)) {f : σ → Reader β} (hf : ∀ s, Throws (f s)) {xs : Bytes} :
    Escapes (readHandled dflt handle >>= f) xs ↔ xs = [] := by
  rw [escapes_bind_throws hf, escapes_readHandled h]

/-- Every span of two bytes is the encoding of an identifier. -/
theorem int16_of_length {enc : Bytes} :
    enc.length = 2 ↔ ∃ v : UInt16, enc = fixedIntBytes 2 v.toNat := by
  constructor
  · intro h
    have hlt := fixedIntValue_lt enc
    refine ⟨UInt16.ofNat (fixedIntValue enc), ?_⟩
    rw [h] at hlt
    rw [UInt16.toNat_ofNat', Nat.mod_eq_of_lt (by simpa using hlt), ← h, bytes_fixedIntValue]
  · rintro ⟨v, rfl⟩
    simp

/-- SUBSCRIBE, UNSUBSCRIBE and their acknowledgements start alike. -/
theorem escapes_identified {dflt : σ} {handle : σ → Property → Except Fault σ}
    (h : ∀ s p, Raises (handle s p)) {f : UInt16 → σ → Reader β} (hf : ∀ i s, Throws (f i s))
    {xs : Bytes} :
    Escapes (do let i ← fixedInt16; let s ← readHandled dflt handle; f i s) xs ↔
      xs.length = 2 := by
  rw [escapes_bind_parses fixedInt16_parses fixedInt16_throws, int16_of_length]
  constructor
  · rintro ⟨enc, v, mid, rfl, rfl, he⟩
    rw [(raises_section h (hf v)).mp he]
    exact ⟨v, by simp⟩
  · rintro ⟨v, rfl⟩
    exact ⟨_, v, [], by simp, rfl, (raises_section h (hf v)).mpr rfl⟩

theorem raises_publish (s : PublishProperties) (p : Property) : Raises (s.handle p) := by
  iterate 7 refine raises_member (by first
    | exact raises_asString _ | exact raises_asBinary _ | exact raises_asIntegral _) ?_
  exact (raises_handleProperty _ p).bind fun _ => raises_ok _

theorem raises_connack (s : ConnackProperties) (p : Property) : Raises (s.handle p) := by
  iterate 10 refine raises_member (by first
    | exact raises_asString _ | exact raises_asIntegral _) ?_
  exact (raises_connectConnack _ p).bind fun _ => raises_ok _

theorem raises_will (s : WillProperties) (p : Property) : Raises (s.handle p) := by
  iterate 6 refine raises_member (by first
    | exact raises_asString _ | exact raises_asBinary _ | exact raises_asIntegral _) ?_
  exact (raises_handleProperty _ p).bind fun _ => raises_ok _

theorem raises_disconnect (s : DisconnectProperties) (p : Property) : Raises (s.handle p) := by
  iterate 3 refine raises_member (by first | exact raises_asString _ | exact raises_asIntegral _) ?_
  exact (raises_handleProperty _ p).bind fun _ => raises_ok _

theorem raises_reason (s : ReasonProperties) (p : Property) : Raises (s.handle p) :=
  raises_member (raises_asString _) ((raises_handleProperty _ p).bind fun _ => raises_ok _)

theorem raises_subscribe (s : SubscribeProperties) (p : Property) : Raises (s.handle p) :=
  raises_member (raises_asIntegral _) ((raises_handleProperty _ p).bind fun _ => raises_ok _)

theorem raises_unsubscribe (s : UnsubscribeProperties) (p : Property) : Raises (s.handle p) :=
  (raises_handleProperty _ p).bind fun _ => raises_ok _

/-! ## Packets -/

theorem escapes_connack {xs : Bytes} : Escapes Connack.deserialize xs ↔ xs.length = 2 := by
  rw [Connack.deserialize, escapes_bind_parses fixedInt8_parses fixedInt8_throws]
  simp only [escapes_bind_parses fixedInt8_parses fixedInt8_throws, ConnackProperties.deserialize,
    raises_section raises_connack fun _ => Throws.pure _]
  constructor
  · rintro ⟨_, _, _, rfl, rfl, _, _, _, rfl, rfl, rfl⟩
    rfl
  · intro h
    obtain ⟨a, b, rfl⟩ := List.length_eq_two.mp h
    exact ⟨[a], a, [b], rfl, rfl, [b], b, [], rfl, rfl, rfl⟩

theorem escapes_publish {hdr : Header} {xs : Bytes} (h : hdr.remainingLength.toNat = xs.length) :
    Escapes (Publish.deserialize hdr) xs ↔ ∃ topic identifier, xs = sizedBytes topic ++ identifier ∧
      Sized topic ∧ identifier.length =
        if ({ headerFlags := hdr.flags } : Publish).qualityOfService = qos0 then 0 else 2 := by
  have htail : ∀ (f : PublishProperties → Bytes → Publish) (xs : Bytes), Escapes (do
      let properties ← PublishProperties.deserialize
      let payload ← cspan
      return f properties payload) xs ↔ xs = [] := fun f xs =>
    raises_section raises_publish fun _ => throws_cspan.bind fun _ => .pure _
  rw [Publish.deserialize, escapes_onSpan h, escapes_bind_parses readString_parses readString_throws]
  by_cases hq : ({ headerFlags := hdr.flags } : Publish).qualityOfService = qos0
  · simp only [hq, ne_eq, not_true_eq_false, ↓reduceIte, pure_bind, htail]
    constructor
    · rintro ⟨_, topic, _, rfl, ⟨rfl, hs⟩, rfl⟩
      exact ⟨topic, [], rfl, hs, rfl⟩
    · rintro ⟨topic, identifier, rfl, hs, hi⟩
      exact ⟨_, topic, identifier, rfl, ⟨rfl, hs⟩, List.length_eq_zero_iff.mp hi⟩
  · simp only [hq, ne_eq, not_false_eq_true, ↓reduceIte,
      escapes_bind_parses fixedInt16_parses fixedInt16_throws, htail]
    constructor
    · rintro ⟨_, topic, _, rfl, ⟨rfl, hs⟩, _, v, _, rfl, rfl, rfl⟩
      exact ⟨topic, fixedIntBytes 2 v.toNat, by simp, hs, by simp⟩
    · rintro ⟨topic, identifier, rfl, hs, hi⟩
      obtain ⟨v, rfl⟩ := int16_of_length.mp hi
      exact ⟨_, topic, _, rfl, ⟨rfl, hs⟩, _, v, [], by simp, rfl, rfl⟩

/-- The remaining length is asked before the properties are read. -/
theorem not_escapes_ack {remainingLength : UInt32} {xs : Bytes}
    (h : remainingLength.toNat = xs.length) : ¬ Escapes (Ack.deserialize remainingLength) xs := by
  rw [Ack.deserialize, escapes_bind_parses fixedInt16_parses fixedInt16_throws]
  rintro ⟨_, v, mid, rfl, rfl, he⟩
  simp only [List.length_append, fixedIntBytes_length] at h
  by_cases h4 : remainingLength ≥ 4
  · have hlong : 4 ≤ remainingLength.toNat := UInt32.le_iff_toNat_le.mp h4
    have h2 : remainingLength > 2 := UInt32.lt_iff_toNat_lt.mpr (by
      rw [show (2 : UInt32).toNat = 2 from rfl]; omega)
    simp only [h2, h4, ↓reduceIte, escapes_bind_parses fixedInt8_parses fixedInt8_throws,
      ReasonProperties.deserialize, raises_section raises_reason fun _ => Throws.pure _] at he
    obtain ⟨_, _, _, rfl, rfl, rfl⟩ := he
    simp at h
    omega
  · simp only [h4, ↓reduceIte, pure_bind] at he
    split at he
    · exact Throws.not_escapes (fixedInt8_throws.bind fun _ => .pure _) mid he
    · exact Throws.not_escapes (.pure _) mid he

theorem not_escapes_disconnect {hdr : Header} {xs : Bytes}
    (h : hdr.remainingLength.toNat = xs.length) : ¬ Escapes (Disconnect.deserialize hdr) xs := by
  rw [Disconnect.deserialize, escapes_onSpan h, escapes_bind, or_iff_right
    (Throws.not_escapes throws_cspan xs)]
  rintro ⟨_, _, ⟨⟩, he⟩
  split at he
  · exact Throws.not_escapes (.pure _) xs he
  rw [escapes_bind_parses fixedInt8_parses fixedInt8_throws] at he
  obtain ⟨_, reason, mid, rfl, rfl, he⟩ := he
  rw [escapes_bind, or_iff_right (Throws.not_escapes throws_cspan mid)] at he
  obtain ⟨_, _, ⟨⟩, he⟩ := he
  split at he
  case isTrue hlong =>
    rw [DisconnectProperties.deserialize, raises_section raises_disconnect fun _ => .pure _] at he
    rw [he] at hlong
    cases hlong
  case isFalse => exact Throws.not_escapes (.pure _) mid he

theorem escapes_subscribe {hdr : Header} {xs : Bytes} (h : hdr.remainingLength.toNat = xs.length) :
    Escapes (Subscribe.deserialize hdr) xs ↔ xs.length = 2 := by
  rw [Subscribe.deserialize, escapes_onSpan h]
  refine escapes_identified raises_subscribe fun i s => Throws.bind ?_ fun _ => .pure _
  exact Throws.untilEmpty (readString_throws.bind fun _ => fixedInt8_throws.bind fun _ => .pure _)
    readTopicFilter_progress

theorem escapes_reasonCodes {hdr : Header} {xs : Bytes}
    (h : hdr.remainingLength.toNat = xs.length) :
    Escapes (ReasonCodes.deserialize hdr) xs ↔ xs.length = 2 := by
  rw [ReasonCodes.deserialize, escapes_onSpan h]
  exact escapes_identified raises_reason fun i s => throws_cspan.bind fun _ => .pure _

theorem escapes_unsubscribe {hdr : Header} {xs : Bytes}
    (h : hdr.remainingLength.toNat = xs.length) :
    Escapes (Unsubscribe.deserialize hdr) xs ↔ xs.length = 2 := by
  rw [Unsubscribe.deserialize, escapes_onSpan h]
  refine escapes_identified raises_unsubscribe fun i s => Throws.bind ?_ fun _ => .pure _
  exact Throws.untilEmpty readString_throws readString_progress

/-! ## CONNECT -/

theorem asString_ok {v : Value} (h : v.kind = .string) : ∃ s, v.asString = .ok s := by
  cases v <;> cases h
  exact ⟨_, rfl⟩

theorem asBinary_ok {v : Value} (h : v.kind = .binary) : ∃ s, v.asBinary = .ok s := by
  cases v <;> cases h
  exact ⟨_, rfl⟩

theorem asIntegral_ok {v : Value} (h : v.kind = .byte ∨ v.kind = .int16 ∨ v.kind = .int32) :
    ∃ n, v.asIntegral = .ok n := by
  cases v <;> rcases h with h | h | h <;> cases h <;> exact ⟨_, rfl⟩

theorem accepts_member {c : Prop} [Decidable c] {r : Except Fault α} {f : α → σ}
    {rest : Except Fault σ} (hr : c → ∃ a, r = .ok a) (h : ∃ s, rest = .ok s) :
    ∃ s, (if c then r >>= fun a => pure (f a) else rest) = .ok s := by
  split
  case isTrue hc =>
    obtain ⟨a, rfl⟩ := hr hc
    exact ⟨f a, rfl⟩
  case isFalse => exact h

theorem accepts_handleProperty {p : Property} (h : p.value.kind = selectedKind p.identifier)
    (base : PropertiesBase) : ∃ s, base.handleProperty p = .ok s := by
  rw [PropertiesBase.handleProperty]
  refine accepts_member (fun hid => ?_) ⟨_, rfl⟩
  rw [hid] at h
  cases hv : p.value <;> rw [hv] at h <;> cases h
  exact ⟨_, rfl⟩

/-- The properties that a CONNECT can carry have the types its handlers ask for. -/
theorem accepts_connect {p : Property} (h : p.value.kind = selectedKind p.identifier)
    (s : ConnectProperties) : ∃ s', s.handle p = .ok s' := by
  have hbase : ∀ s : ConnectConnackProperties, ∃ s', s.handle p = .ok s' := by
    intro s
    apply accepts_member (fun hid => asString_ok (by rw [h, hid]; rfl))
    apply accepts_member (fun hid => asBinary_ok (by rw [h, hid]; rfl))
    apply accepts_member (fun hid => asIntegral_ok (by rw [h, hid]; decide))
    apply accepts_member (fun hid => asIntegral_ok (by rw [h, hid]; decide))
    apply accepts_member (fun hid => asIntegral_ok (by rw [h, hid]; decide))
    apply accepts_member (fun hid => asIntegral_ok (by rw [h, hid]; decide))
    obtain ⟨b, hb⟩ := accepts_handleProperty h s.toPropertiesBase
    exact ⟨{ s with toPropertiesBase := b }, by rw [hb]; rfl⟩
  apply accepts_member (fun hid => asIntegral_ok (by rw [h, hid]; decide))
  apply accepts_member (fun hid => asIntegral_ok (by rw [h, hid]; decide))
  obtain ⟨b, hb⟩ := hbase s.toConnectConnackProperties
  exact ⟨{ s with toConnectConnackProperties := b }, by rw [hb]; rfl⟩

theorem accepts_foldlM {props : List Property}
    (h : ∀ p ∈ props, p.value.kind = selectedKind p.identifier) (s : ConnectProperties) :
    ∃ s', props.foldlM ConnectProperties.handle s = .ok s' := by
  induction props generalizing s with
  | nil => exact ⟨s, rfl⟩
  | cons p props ih =>
    obtain ⟨s₁, h₁⟩ := accepts_connect (h p (by simp)) s
    obtain ⟨s₂, h₂⟩ := ih (fun q hq => h q (by simp [hq])) s₁
    exact ⟨s₂, by rw [List.foldlM_cons, h₁]; exact h₂⟩

theorem star_kind {enc : Bytes} {props : List Property} (h : Star PropertyWord enc props) :
    ∀ p ∈ props, p.value.kind = selectedKind p.identifier := by
  induction h with
  | nil => simp
  | cons head tail ih =>
    obtain ⟨_, _, _, _, hk, _⟩ := head
    simpa [hk] using ih

theorem accepts_block {enc : Bytes} {props : List Property} (h : BlockWord enc props) :
    ∃ s, props.foldlM ConnectProperties.handle {} = .ok s := by
  obtain ⟨_, _, _, _, hstar⟩ := h
  exact accepts_foldlM (star_kind hstar) {}

theorem readProtocolName_parses : Parses Connect.readProtocolName
    (fun enc _ => enc = sizedBytes Connect.alwaysMqtt) := by
  intro xs u rest
  rw [Connect.readProtocolName, run_bind_ok]
  constructor
  · rintro ⟨name, mid, hn, hc⟩
    obtain ⟨enc, rfl, rfl, -⟩ := (readString_parses _ _ _).mp hn
    split at hc
    · cases hc
    case isFalse h =>
      cases hc
      exact ⟨_, rfl, by rw [not_not.mp h]⟩
  · rintro ⟨_, rfl, rfl⟩
    exact ⟨Connect.alwaysMqtt, rest, readString_parses.decodes ⟨rfl, by decide⟩ rest, rfl⟩

theorem readProtocolName_throws : Throws Connect.readProtocolName := by
  refine readString_throws.bind fun name => ?_
  intro xs e h
  split at h
  · cases h
    exact .protocolError _
  · cases h

theorem readFlagged_throws {flags flag : UInt8} {p : Reader Bytes} (h : Throws p) :
    Throws (Connect.readFlagged flags flag p) := by
  rw [Connect.readFlagged]
  split
  · exact h.map some
  · exact .pure none

theorem escapes_readWill {flags : UInt8} {xs : Bytes} :
    Escapes (Connect.readWill flags) xs ↔ flags &&& Connect.willFlag ≠ 0 ∧ xs = [] := by
  rw [Connect.readWill]
  split
  case isTrue h =>
    rw [WillProperties.deserialize, raises_section raises_will fun _ =>
      readString_throws.bind fun _ => readBinary_throws.bind fun _ => .pure _]
    simp [h]
  case isFalse h => simp [h, Throws.not_escapes (Throws.pure _) xs]

/-- The fields of a CONNECT up to its properties. -/
def ConnectStart (flags : UInt8) (enc : Bytes) : Prop :=
  ∃ (version : UInt8) (keepAlive : Bytes), keepAlive.length = 2 ∧
    enc = sizedBytes Connect.alwaysMqtt ++ version :: flags :: keepAlive

/-- The properties of a CONNECT and its client identifier. -/
def PropertiesAndClientId (enc : Bytes) : Prop :=
  ∃ block properties clientId, BlockWord block properties ∧ Sized clientId ∧
    enc = block ++ sizedBytes clientId

theorem escapes_will_properties {flags : UInt8} {f : ConnectProperties → Bytes →
    WillProperties × Bytes × Bytes → Reader Connect} (hf : ∀ p c w, Throws (f p c w)) {xs : Bytes} :
    Escapes (do
      let connectProperties ← ConnectProperties.deserialize
      let clientId ← readString
      let will ← Connect.readWill flags
      f connectProperties clientId will) xs ↔
      xs = [] ∨ flags &&& Connect.willFlag ≠ 0 ∧ PropertiesAndClientId xs := by
  rw [escapes_bind, ConnectProperties.deserialize, escapes_readHandled raises_connect]
  apply or_congr_right
  simp only [escapes_bind_parses readString_parses readString_throws,
    escapes_bind_throws (hf _ _), escapes_readWill]
  constructor
  · rintro ⟨s, mid, hs, _, clientId, _, rfl, ⟨rfl, hsized⟩, hw, rfl⟩
    obtain ⟨block, rfl, props, hb, -⟩ := (readHandled_parses _ _ _).mp hs
    exact ⟨hw, block, props, clientId, hb, hsized, by simp⟩
  · rintro ⟨hw, block, props, clientId, hb, hsized, rfl⟩
    obtain ⟨s, hs⟩ := accepts_block hb
    exact ⟨s, _, readHandled_parses.decodes ⟨props, hb, hs⟩ _, _, clientId, [], by simp,
      ⟨rfl, hsized⟩, hw, rfl⟩

/-- A CONNECT has two blocks, and either can be due at the end. -/
theorem escapes_connect {xs : Bytes} : Escapes Connect.deserialize xs ↔
    ∃ flags start rest, xs = start ++ rest ∧ ConnectStart flags start ∧
      (rest = [] ∨ flags &&& Connect.willFlag ≠ 0 ∧ PropertiesAndClientId rest) := by
  have htail : ∀ (version flags : UInt8) (keepAlive : UInt16) (p : ConnectProperties) (c : Bytes)
      (w : WillProperties × Bytes × Bytes), Throws (do
        let username ← Connect.readFlagged flags Connect.usernameFlag readString
        let password ← Connect.readFlagged flags Connect.passwordFlag readBinary
        return (⟨version, flags, keepAlive, p, c, w.1, w.2.1, w.2.2, username, password⟩ :
          Connect)) := fun _ _ _ _ _ _ =>
    (readFlagged_throws readString_throws).bind fun _ =>
      (readFlagged_throws readBinary_throws).bind fun _ => .pure _
  rw [Connect.deserialize, escapes_bind_parses readProtocolName_parses readProtocolName_throws]
  simp only [escapes_bind_parses fixedInt8_parses fixedInt8_throws,
    escapes_bind_parses fixedInt16_parses fixedInt16_throws]
  constructor
  · rintro ⟨_, _, _, rfl, rfl, _, version, _, rfl, rfl, _, flags, _, rfl, rfl, _, keepAlive, rest,
      rfl, rfl, he⟩
    exact ⟨flags, _, rest, by simp, ⟨version, fixedIntBytes 2 keepAlive.toNat, by simp, rfl⟩,
      (escapes_will_properties (htail version flags keepAlive)).mp he⟩
  · rintro ⟨flags, _, rest, rfl, ⟨version, _, hk, rfl⟩, he⟩
    obtain ⟨keepAlive, rfl⟩ := int16_of_length.mp hk
    exact ⟨_, (), version :: flags :: (fixedIntBytes 2 keepAlive.toNat ++ rest), by simp, rfl,
      [version], version, _, rfl, rfl, [flags], flags, _, rfl, rfl, _, keepAlive, rest, rfl, rfl,
      (escapes_will_properties (htail version flags keepAlive)).mpr he⟩

/-! ## The dispatcher -/

/-- The length of a property block is due where the body ends. -/
def PropertyLengthMissing (hdr : Header) (body : Bytes) : Prop :=
  if hdr.type = Connect.typeValue then
    ∃ flags start rest, body = start ++ rest ∧ ConnectStart flags start ∧
      (rest = [] ∨ flags &&& Connect.willFlag ≠ 0 ∧ PropertiesAndClientId rest)
  else if hdr.type = Publish.typeValue then
    ∃ topic identifier, body = sizedBytes topic ++ identifier ∧ Sized topic ∧
      identifier.length =
        if ({ headerFlags := hdr.flags } : Publish).qualityOfService = qos0 then 0 else 2
  else
    hdr.type ∈ [Connack.typeValue, Subscribe.typeValue, Suback.typeValue, Unsubscribe.typeValue,
      Unsuback.typeValue] ∧ body.length = 2

theorem propertyLengthMissing_two {hdr : Header} {body : Bytes} {t : UInt8} (ht : hdr.type = t)
    (h : t ∈ [Connack.typeValue, Subscribe.typeValue, Suback.typeValue, Unsubscribe.typeValue,
      Unsuback.typeValue]) : PropertyLengthMissing hdr body ↔ body.length = 2 := by
  have h₁ : t ≠ Connect.typeValue := by
    rintro rfl
    exact absurd h (by decide)
  have h₃ : t ≠ Publish.typeValue := by
    rintro rfl
    exact absurd h (by decide)
  rw [PropertyLengthMissing, ht, if_neg h₁, if_neg h₃, and_iff_right h]

theorem not_propertyLengthMissing {hdr : Header} {body : Bytes} (h : hdr.type ∉
      [Connect.typeValue, Connack.typeValue, Publish.typeValue, Subscribe.typeValue,
        Suback.typeValue, Unsubscribe.typeValue, Unsuback.typeValue]) :
    ¬ PropertyLengthMissing hdr body := by
  simp only [List.mem_cons, List.not_mem_nil, or_false, not_or] at h
  obtain ⟨h₁, h₂, h₃, h₈, h₉, h₁₀, h₁₁⟩ := h
  rw [PropertyLengthMissing, if_neg h₁, if_neg h₃]
  simp [h₂, h₈, h₉, h₁₀, h₁₁]

theorem escapes_deserializeBody {hdr : Header} {body : Bytes}
    (h : hdr.remainingLength.toNat = body.length) :
    Escapes (ControlPacket.deserializeBody hdr) body ↔ PropertyLengthMissing hdr body := by
  have hdispatch := ControlPacket.dispatches hdr
  generalize ControlPacket.deserializeBody hdr = p at hdispatch ⊢
  cases hdispatch with
  | connect ht => rw [escapes_map, escapes_connect, PropertyLengthMissing, if_pos ht]
  | connack ht => rw [escapes_map, escapes_connack, propertyLengthMissing_two ht (by decide)]
  | publish ht =>
    have h₁ : hdr.type ≠ Connect.typeValue := by rw [ht]; decide
    rw [escapes_map, escapes_publish h, PropertyLengthMissing, if_neg h₁, if_pos ht]
  | ack c ht =>
    refine iff_of_false (fun he => not_escapes_ack h (escapes_map.mp he))
      (not_propertyLengthMissing ?_)
    simp only [List.mem_cons, List.not_mem_nil, or_false] at ht
    rcases ht with ht | ht | ht | ht <;> rw [ht] <;> decide
  | subscribe ht =>
    rw [escapes_map, escapes_subscribe h, propertyLengthMissing_two ht (by decide)]
  | reasonCodes c ht =>
    rw [escapes_map, escapes_reasonCodes h, propertyLengthMissing_two rfl]
    simp only [List.mem_cons, List.not_mem_nil, or_false] at ht ⊢
    rcases ht with ht | ht <;> simp [ht]
  | unsubscribe ht =>
    rw [escapes_map, escapes_unsubscribe h, propertyLengthMissing_two ht (by decide)]
  | disconnect ht =>
    refine iff_of_false (fun he => not_escapes_disconnect h (escapes_map.mp he))
      (not_propertyLengthMissing ?_)
    rw [ht]
    decide
  | ping p ht =>
    refine iff_of_false (Throws.not_escapes (.pure p) body) (not_propertyLengthMissing ?_)
    simp only [List.mem_cons, List.not_mem_nil, or_false] at ht
    rcases ht with ht | ht <;> rw [ht] <;> decide
  | unknown ht =>
    refine iff_of_false ?_ (not_propertyLengthMissing ht)
    rintro ⟨_, ⟨⟩, hne⟩
    exact hne (.runtimeError _)

/-- The outcome of a body deserializer that stays inside the body. -/
def StaysInside (r : Except Fault ControlPacket) : Prop :=
  (∃ packet, r = .ok packet) ∨ ∃ e, r = .error e ∧ e.IsException

/-- A body deserializer returns a packet or throws, unless the length of a property block
is due at the end of the body. -/
theorem decodeBody_staysInside {hdr : Header} {body : Bytes}
    (h : hdr.remainingLength.toNat = body.length) :
    StaysInside (ControlPacket.decodeBody hdr body) ↔ ¬ PropertyLengthMissing hdr body := by
  rw [← escapes_deserializeBody h, StaysInside, ControlPacket.decodeBody, Escapes]
  cases (ControlPacket.deserializeBody hdr).run body with
  | ok r => exact iff_of_true (.inl ⟨r.1, rfl⟩) (by simp)
  | error e =>
    constructor
    · rintro (⟨p, hp⟩ | ⟨e', he, hx⟩)
      · cases hp
      · cases he
        rintro ⟨_, ⟨⟩, hne⟩
        exact hne hx
    · intro hne
      refine .inr ⟨e, rfl, ?_⟩
      by_contra hx
      exact hne ⟨e, rfl, hx⟩

/-- A CONNACK of two bytes: the flags and the reason code. -/
theorem connack_leaves_body :
    ¬ StaysInside (ControlPacket.decodeBody ⟨0x20, 2⟩ [0, 0]) := by
  have hrun : ControlPacket.decodeBody ⟨0x20, 2⟩ [0, 0] = .error .outOfBounds := rfl
  rw [hrun]
  rintro (⟨_, ⟨⟩⟩ | ⟨_, ⟨⟩, ⟨⟩⟩)

theorem connack_staysInside : StaysInside (ControlPacket.decodeBody ⟨0x20, 3⟩ [0, 0, 0]) := by
  apply (decodeBody_staysInside rfl).mpr
  rw [propertyLengthMissing_two (t := Connack.typeValue) (by decide) (by decide)]
  decide

end Mqtt5.WireBounds
