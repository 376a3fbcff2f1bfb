import Mqtt5.WireSizes
import Mqtt5.WireRoundTrip
import Mqtt5.ClientHandlers

/-!
# The CONNECT that the options call for

`send_connect` copies the options into a CONNECT field by field. Two of them arrive wrong:
the flag for a clean start is inverted, and the user properties of the will are left out.
-/
namespace Mqtt5.ClientConnectMessage
open ByteParser ByteWriter WirePrimitives WireProperties WirePublish WireConnect WireControlPacket
open WireRoundTrip WireSizes CallMachine ClientState

/-- The will is within the wire limits. -/
structure WillFits (will : LastWill) : Prop where
  topic : Sized will.topic
  payload : Sized will.payload
  contentType : Sized will.contentType
  responseTopic : Sized will.responseTopic
  correlationData : Sized will.correlationData
  qualityOfService : will.qualityOfService = qos0 ∨ will.qualityOfService = qos1 ∨
    will.qualityOfService = qos2

/-- The options are within the wire limits. -/
structure OptionsFit (opts : ConnectOptions) : Prop where
  clientId : Sized opts.clientId
  username : Sized opts.username
  password : Sized opts.password
  will : ∀ will ∈ opts.lastWill, WillFits will

/-! ## What the options say -/

/-- The two bits of the flags that hold the quality of service of the will. -/
def willQos (flags : UInt8) : QualityOfService := (flags >>> 3) &&& 0x03

/-- The will of a CONNECT is the one of the options, but for its user properties. -/
structure SaysWill (connect : Connect) (will : LastWill) : Prop where
  willFlag : connect.flags &&& Connect.willFlag ≠ 0
  qualityOfService : willQos connect.flags = will.qualityOfService
  retain : connect.flags &&& Connect.willRetainFlag ≠ 0 ↔ will.retain = true
  topic : connect.willTopic = will.topic
  payload : connect.willPayload = will.payload
  contentType : connect.willProperties.contentType = will.contentType
  responseTopic : connect.willProperties.responseTopic = will.responseTopic
  correlationData : connect.willProperties.correlationData = will.correlationData
  delayInterval : connect.willProperties.delayInterval = will.delayInterval
  messageExpiryInterval : connect.willProperties.messageExpiryInterval = will.messageExpiryInterval
  payloadFormatIndicator :
    connect.willProperties.payloadFormatIndicator = will.payloadFormatIndicator

/-- A CONNECT without a will has none of its parts. -/
structure SaysNoWill (connect : Connect) : Prop where
  willFlag : connect.flags &&& Connect.willFlag = 0
  qualityOfService : willQos connect.flags = qos0
  retain : connect.flags &&& Connect.willRetainFlag = 0
  topic : connect.willTopic = []
  payload : connect.willPayload = []
  properties : connect.willProperties = {}

/-- A CONNECT says what the options say, but for the clean start and the user properties of
the will. -/
structure SaysRest (connect : Connect) (opts : ConnectOptions) : Prop where
  will : ∀ will, opts.lastWill = some will → SaysWill connect will
  noWill : opts.lastWill = none → SaysNoWill connect
  keepAlive : connect.keepAlive = opts.keepAlive
  clientId : connect.clientId = opts.clientId
  receiveMaximum : connect.connectProperties.receiveMaximum = opts.receiveMaximum
  username : connect.username = if opts.username = [] then none else some opts.username
  usernameFlag : connect.flags &&& Connect.usernameFlag ≠ 0 ↔ opts.username ≠ []
  password : connect.password = if opts.password = [] then none else some opts.password
  passwordFlag : connect.flags &&& Connect.passwordFlag ≠ 0 ↔ opts.password ≠ []

/-- A CONNECT says all that the options say. -/
structure Says (connect : Connect) (opts : ConnectOptions) : Prop where
  rest : SaysRest connect opts
  cleanStart : connect.flags &&& Connect.cleanStartFlag ≠ 0 ↔ opts.cleanStart = true
  userProperty : ∀ will ∈ opts.lastWill,
    connect.willProperties.userProperty = will.userProperty

/-! ## The message -/

/-- The flags of the message, from what the options have. -/
def flagsFor (will : Option (Bool × QualityOfService)) (cleanStart username password : Bool) :
    UInt8 :=
  let flags : UInt8 := match will with
    | some (retain, qos) =>
        let flags := 0 ||| Connect.willFlag
        let flags := if retain then flags ||| Connect.willRetainFlag else flags
        if qos = qos1 then flags ||| Connect.willQos1
        else if qos = qos2 then flags ||| Connect.willQos2
        else flags
    | none => 0
  let flags := flags ||| (if cleanStart then 0 else Connect.cleanStartFlag)
  let flags := if username then flags ||| Connect.usernameFlag else flags
  if password then flags ||| Connect.passwordFlag else flags

theorem connectMessage_flags (opts : ConnectOptions) : (Client.connectMessage opts).flags =
    flagsFor (opts.lastWill.map fun will => (will.retain, will.qualityOfService)) opts.cleanStart
      (opts.username ≠ []) (opts.password ≠ []) := by
  unfold Client.connectMessage flagsFor
  cases opts.lastWill <;> by_cases hu : opts.username = [] <;> by_cases hp : opts.password = [] <;>
    simp [hu, hp, Client.addWill]

/-- The bits of the flags that do not belong to the will. -/
structure OtherBits (flags : UInt8) (cleanStart username password : Bool) : Prop where
  cleanStart : flags &&& Connect.cleanStartFlag ≠ 0 ↔ cleanStart = false
  username : flags &&& Connect.usernameFlag ≠ 0 ↔ username = true
  password : flags &&& Connect.passwordFlag ≠ 0 ↔ password = true

instance (flags : UInt8) (cleanStart username password : Bool) :
    Decidable (OtherBits flags cleanStart username password) :=
  decidable_of_iff ((flags &&& Connect.cleanStartFlag ≠ 0 ↔ cleanStart = false) ∧
    (flags &&& Connect.usernameFlag ≠ 0 ↔ username = true) ∧
    (flags &&& Connect.passwordFlag ≠ 0 ↔ password = true))
    ⟨fun ⟨h₁, h₂, h₃⟩ => ⟨h₁, h₂, h₃⟩, fun ⟨h₁, h₂, h₃⟩ => ⟨h₁, h₂, h₃⟩⟩

theorem flagsFor_none : ∀ cleanStart username password : Bool,
    OtherBits (flagsFor none cleanStart username password) cleanStart username password ∧
    flagsFor none cleanStart username password &&& Connect.willFlag = 0 ∧
    willQos (flagsFor none cleanStart username password) = qos0 ∧
    flagsFor none cleanStart username password &&& Connect.willRetainFlag = 0 := by
  decide +kernel

theorem flagsFor_some {qos : QualityOfService} (hqos : qos = qos0 ∨ qos = qos1 ∨ qos = qos2) :
    ∀ retain cleanStart username password : Bool,
    OtherBits (flagsFor (some (retain, qos)) cleanStart username password) cleanStart username
      password ∧
    flagsFor (some (retain, qos)) cleanStart username password &&& Connect.willFlag ≠ 0 ∧
    willQos (flagsFor (some (retain, qos)) cleanStart username password) = qos ∧
    (flagsFor (some (retain, qos)) cleanStart username password &&& Connect.willRetainFlag ≠ 0 ↔
      retain = true) := by
  rcases hqos with rfl | rfl | rfl <;> decide +kernel

theorem connectMessage_otherBits {opts : ConnectOptions} (h : OptionsFit opts) :
    OtherBits (Client.connectMessage opts).flags opts.cleanStart (opts.username ≠ [])
      (opts.password ≠ []) := by
  rw [connectMessage_flags]
  cases hwill : opts.lastWill with
  | none => exact (flagsFor_none _ _ _).1
  | some will => exact (flagsFor_some (h.will will hwill).qualityOfService _ _ _ _).1

/-- What the message has beside its flags. -/
theorem connectMessage_fields (opts : ConnectOptions) :
    Client.connectMessage opts =
      { flags := (Client.connectMessage opts).flags
        keepAlive := opts.keepAlive
        clientId := opts.clientId
        connectProperties := { receiveMaximum := opts.receiveMaximum }
        willTopic := (opts.lastWill.map (·.topic)).getD []
        willPayload := (opts.lastWill.map (·.payload)).getD []
        willProperties := (opts.lastWill.map fun will =>
          { contentType := will.contentType
            responseTopic := will.responseTopic
            correlationData := will.correlationData
            delayInterval := will.delayInterval
            messageExpiryInterval := will.messageExpiryInterval
            payloadFormatIndicator := will.payloadFormatIndicator }).getD {}
        username := if opts.username = [] then none else some opts.username
        password := if opts.password = [] then none else some opts.password } := by
  unfold Client.connectMessage
  cases opts.lastWill <;> by_cases hu : opts.username = [] <;> by_cases hp : opts.password = [] <;>
    simp [hu, hp, Client.addWill]

theorem connectMessage_saysWill {opts : ConnectOptions} {will : LastWill}
    (hwill : opts.lastWill = some will) (h : WillFits will) :
    SaysWill (Client.connectMessage opts) will := by
  have hflags := connectMessage_flags opts
  have hfields := connectMessage_fields opts
  rw [hwill] at hflags hfields
  obtain ⟨-, hwillFlag, hqos, hretain⟩ := flagsFor_some h.qualityOfService will.retain
    opts.cleanStart (opts.username ≠ []) (opts.password ≠ [])
  constructor
  · rw [hflags]
    exact hwillFlag
  · rw [hflags]
    exact hqos
  · rw [hflags]
    exact hretain
  all_goals rw [hfields]; rfl

theorem connectMessage_saysNoWill {opts : ConnectOptions} (hwill : opts.lastWill = none) :
    SaysNoWill (Client.connectMessage opts) := by
  have hflags := connectMessage_flags opts
  have hfields := connectMessage_fields opts
  rw [hwill] at hflags hfields
  obtain ⟨-, hwillFlag, hqos, hretain⟩ :=
    flagsFor_none opts.cleanStart (opts.username ≠ []) (opts.password ≠ [])
  constructor
  · rw [hflags]
    exact hwillFlag
  · rw [hflags]
    exact hqos
  · rw [hflags]
    exact hretain
  all_goals rw [hfields]; rfl

theorem connectMessage_saysRest {opts : ConnectOptions} (h : OptionsFit opts) :
    SaysRest (Client.connectMessage opts) opts := by
  have hbits := connectMessage_otherBits h
  constructor
  · exact fun will hwill => connectMessage_saysWill hwill (h.will will hwill)
  · exact connectMessage_saysNoWill
  · rw [connectMessage_fields]
  · rw [connectMessage_fields]
  · rw [connectMessage_fields]
  · rw [connectMessage_fields]
  · simpa using hbits.username
  · rw [connectMessage_fields]
  · simpa using hbits.password

/-! ## The bytes -/

/-- The properties of the message, and of its will. -/
def messageProperties (opts : ConnectOptions) : ConnectProperties :=
  { receiveMaximum := opts.receiveMaximum }

def messageWill (will : LastWill) : WillProperties :=
  { contentType := will.contentType
    responseTopic := will.responseTopic
    correlationData := will.correlationData
    delayInterval := will.delayInterval
    messageExpiryInterval := will.messageExpiryInterval
    payloadFormatIndicator := will.payloadFormatIndicator }

theorem messageProperties_wellFormed (opts : ConnectOptions) :
    ConnectProperties.asSection.WellFormed (messageProperties opts) := by
  refine ⟨?_, fun _ h => absurd h List.not_mem_nil, fun _ h => absurd h List.not_mem_nil,
    fun _ h => absurd h List.not_mem_nil⟩
  intro a ha _
  change a ∈ ConnectProperties.adds _ at ha
  simp only [ConnectProperties.adds, ConnectConnackProperties.adds, messageProperties,
    List.mem_cons, List.not_mem_nil, or_false] at ha
  rcases ha with rfl | rfl | rfl | rfl | rfl | rfl | rfl | rfl
  all_goals trivial

theorem messageProperties_fits (opts : ConnectOptions) :
    ∀ a ∈ ConnectProperties.asSection.adds (messageProperties opts), a.present → a.Fits := by
  intro a ha _
  change a ∈ ConnectProperties.adds _ at ha
  simp only [ConnectProperties.adds, ConnectConnackProperties.adds, messageProperties,
    List.mem_cons, List.not_mem_nil, or_false] at ha
  rcases ha with rfl | rfl | rfl | rfl | rfl | rfl | rfl | rfl
  all_goals rfl

theorem messageWill_wellFormed {will : LastWill} (h : WillFits will) :
    WillProperties.asSection.WellFormed (messageWill will) := by
  refine ⟨?_, fun _ h => absurd h List.not_mem_nil, fun _ h => absurd h List.not_mem_nil,
    fun _ h => absurd h List.not_mem_nil⟩
  intro a ha _
  change a ∈ WillProperties.adds _ at ha
  simp only [WillProperties.adds, messageWill, List.mem_cons, List.not_mem_nil, or_false] at ha
  rcases ha with rfl | rfl | rfl | rfl | rfl | rfl
  · exact h.contentType
  · exact h.correlationData
  · exact h.responseTopic
  all_goals trivial

theorem messageWill_fits (will : LastWill) :
    ∀ a ∈ WillProperties.asSection.adds (messageWill will), a.present → a.Fits := by
  intro a ha _
  change a ∈ WillProperties.adds _ at ha
  simp only [WillProperties.adds, messageWill, List.mem_cons, List.not_mem_nil, or_false] at ha
  rcases ha with rfl | rfl | rfl | rfl | rfl | rfl
  all_goals rfl

theorem connectMessage_wellFormed {opts : ConnectOptions} (h : OptionsFit opts) :
    (Client.connectMessage opts).WellFormed := by
  have hstated := connectMessage_saysRest h
  have hfields := connectMessage_fields opts
  constructor
  · rw [hstated.clientId]
    exact h.clientId
  · rw [hfields]
    exact messageProperties_wellFormed opts
  · intro hflag
    cases hwill : opts.lastWill with
    | none => exact absurd (hstated.noWill hwill).willFlag hflag
    | some will =>
      rw [hfields, hwill]
      exact ⟨messageWill_wellFormed (h.will will hwill), (h.will will hwill).topic,
        (h.will will hwill).payload⟩
  · rw [hstated.usernameFlag, hstated.username]
    simp
  · rw [hstated.passwordFlag, hstated.password]
    simp
  · rw [hstated.username]
    intro username husername
    split at husername
    · cases husername
    · cases husername
      exact h.username
  · rw [hstated.password]
    intro password hpassword
    split at hpassword
    · cases hpassword
    · cases hpassword
      exact h.password

/-- The decoder gives the message back as it was built. -/
theorem connectMessage_received {opts : ConnectOptions} (h : OptionsFit opts) :
    (Client.connectMessage opts).received = Client.connectMessage opts := by
  have hstated := connectMessage_saysRest h
  have hfields := connectMessage_fields opts
  have hwill : (Client.connectMessage opts).receivedWill =
      ((Client.connectMessage opts).willProperties, (Client.connectMessage opts).willTopic,
        (Client.connectMessage opts).willPayload) := by
    rw [Connect.receivedWill]
    cases hlast : opts.lastWill with
    | none =>
      have hno := hstated.noWill hlast
      rw [if_neg (not_not.mpr hno.willFlag), hno.properties, hno.topic, hno.payload]
    | some will =>
      rw [if_pos (hstated.will will hlast).willFlag, hfields, hlast]
      rfl
  have hproperties : ConnectProperties.asSection.decoded
      (Client.connectMessage opts).connectProperties =
        (Client.connectMessage opts).connectProperties := by
    rw [hfields]
    rfl
  rw [Connect.received, hwill, hproperties]

theorem emits_messageProperties (opts : ConnectOptions) :
    Emits (messageProperties opts).serialize 1048628 := by
  have hlen : (ConnectProperties.asSection.adds (messageProperties opts)).length = 8 := rfl
  exact (emits_section (messageProperties_wellFormed opts) (messageProperties_fits opts) rfl rfl
    (by omega)).mono (by omega)

theorem emits_messageWill {will : LastWill} (h : WillFits will) :
    Emits (messageWill will).serialize 786472 := by
  have hlen : (WillProperties.asSection.adds (messageWill will)).length = 6 := rfl
  exact (emits_section (messageWill_wellFormed h) (messageWill_fits will) rfl rfl
    (by omega)).mono (by omega)

theorem emits_writeWill {opts : ConnectOptions} (h : OptionsFit opts) :
    Emits (Client.connectMessage opts).writeWill 917550 := by
  rw [Connect.writeWill]
  split
  case isTrue hflag =>
    cases hwill : opts.lastWill with
    | none =>
      exact absurd (connectMessage_saysNoWill hwill).willFlag hflag
    | some will =>
      have hfits := h.will will hwill
      rw [connectMessage_fields, hwill]
      exact (((emits_messageWill hfits).append (emits_string hfits.topic)).append
        (emits_binary hfits.payload)).mono (by omega)
  case isFalse => exact emits_nil.mono (Nat.zero_le _)

theorem emits_optional {w : Bytes → Writer} {data : Bytes} {n : ℕ} (h : Emits (w data) n) :
    Emits (Connect.writeOptional w (if data = [] then none else some data)) n := by
  split
  · exact emits_nil.mono (Nat.zero_le _)
  · exact h

theorem emits_connectMessage {opts : ConnectOptions} (h : OptionsFit opts) :
    Emits (Client.connectMessage opts).serialize 3000000 := by
  have hstated := connectMessage_saysRest h
  have hmqtt : Emits (writeString Connect.alwaysMqtt) 65537 := emits_string (by decide)
  have hproperties : Emits (Client.connectMessage opts).connectProperties.serialize 1048628 := by
    rw [connectMessage_fields]
    exact emits_messageProperties opts
  have hclientId : Emits (writeString (Client.connectMessage opts).clientId) 65537 := by
    rw [hstated.clientId]
    exact emits_string h.clientId
  have husername : Emits (Connect.writeOptional writeString (Client.connectMessage opts).username)
      65537 := by
    rw [hstated.username]
    exact emits_optional (emits_string h.username)
  have hpassword : Emits (Connect.writeOptional writeBinary (Client.connectMessage opts).password)
      65537 := by
    rw [hstated.password]
    exact emits_optional (emits_binary h.password)
  have hbody : Emits (Client.connectMessage opts).serializeBody 2300000 :=
    ((((((((hmqtt.append (emits_int8 _)).append (emits_int8 _)).append (emits_int16 _)).append
      hproperties).append hclientId).append (emits_writeWill h)).append husername).append
        hpassword).mono (by omega)
  exact (emits_packet hbody (by omega) Connect.typeValue 0).mono (by omega)

/-- The bytes that `send_connect` hands to the connection. -/
theorem sendConnect_frame {opts : ConnectOptions} (h : OptionsFit opts) (c : Client)
    (hopts : c.connectOpts = opts) : ∃ frame,
      c.sendConnect.state.pendingWrites = c.pendingWrites ++ [⟨frame, .message⟩] ∧
      c.sendConnect.threw = false ∧
      ControlPacket.deserialize.run frame = .ok (.connect (Client.connectMessage opts), []) := by
  obtain ⟨frame, hframe, hlen⟩ := emits_connectMessage h
  have hserialize : (ControlPacket.connect (Client.connectMessage opts)).serialize = .emit frame :=
    hframe
  refine ⟨frame, ?_, ?_, ?_⟩
  · rw [Client.sendConnect, hopts, Client.sendMessage, Client.controlPacketWriter, hserialize]
    rfl
  · rw [Client.sendConnect, hopts, Client.sendMessage, Client.controlPacketWriter, hserialize]
    rfl
  · have hread := reads_controlPacket (p := .connect (Client.connectMessage opts))
      (connectMessage_wellFormed h) hserialize (by omega) []
    rw [List.append_nil, received, connectMessage_received h] at hread
    exact hread

/-- For all options within the wire limits, the CONNECT that is read from the bytes says what
the options say, except that its flag for a clean start is set just when the options ask for
none, and its will has no user properties; so it never says all of it. -/
theorem connect_says_rest {opts : ConnectOptions} (h : OptionsFit opts) (c : Client)
    (hopts : c.connectOpts = opts) : ∃ frame connect,
      c.sendConnect.state.pendingWrites = c.pendingWrites ++ [⟨frame, .message⟩] ∧
      ControlPacket.deserialize.run frame = .ok (.connect connect, []) ∧
      SaysRest connect opts ∧
      (connect.flags &&& Connect.cleanStartFlag ≠ 0 ↔ opts.cleanStart = false) ∧
      connect.willProperties.userProperty = [] ∧
      ¬ Says connect opts := by
  obtain ⟨frame, hwrite, -, hread⟩ := sendConnect_frame h c hopts
  have hclean := (connectMessage_otherBits h).cleanStart
  refine ⟨frame, _, hwrite, hread, connectMessage_saysRest h, hclean, ?_, ?_⟩
  · rw [connectMessage_fields]
    cases opts.lastWill <;> rfl
  · intro hstated
    have hcontra := hstated.cleanStart.symm.trans hclean
    cases hstart : opts.cleanStart <;> simp [hstart] at hcontra

/-- A will to be sent once, at a quality of service of 1. -/
def willOptions : ConnectOptions :=
  { clientId := [99]
    lastWill := some { topic := [119], qualityOfService := qos1, userProperty := [⟨[107], [118]⟩] }
    cleanStart := false }

theorem willOptions_fit : OptionsFit willOptions where
  clientId := by decide
  username := by decide
  password := by decide
  will := by
    intro will hwill
    cases hwill
    exact ⟨by decide, by decide, by decide, by decide, by decide, .inr (.inl rfl)⟩

theorem connect_says_rest_will : ∃ frame connect,
    ControlPacket.deserialize.run frame = .ok (.connect connect, []) ∧
      connect.flags &&& Connect.cleanStartFlag ≠ 0 ∧ willQos connect.flags = qos1 ∧
      connect.willTopic = [119] ∧ connect.willProperties.userProperty = [] := by
  obtain ⟨frame, connect, -, hread, hrest, hclean, huser, -⟩ :=
    connect_says_rest willOptions_fit { connectOpts := willOptions } rfl
  have hwill := hrest.will _ rfl
  exact ⟨frame, connect, hread, hclean.mpr rfl, hwill.qualityOfService, hwill.topic, huser⟩

def defaultFrame : Bytes := [16, 13, 0, 4, 77, 81, 84, 84, 5, 0, 0, 0, 0, 0, 0]

/-- The default options ask for a clean start, and the CONNECT does not. -/
theorem defaultOptions_not_said : ¬ ∀ (opts : ConnectOptions) (c : Client), OptionsFit opts →
    c.connectOpts = opts → ∃ frame connect,
      c.sendConnect.state.pendingWrites = c.pendingWrites ++ [⟨frame, .message⟩] ∧
      ControlPacket.deserialize.run frame = .ok (.connect connect, []) ∧ Says connect opts := by
  intro hsaid
  have hfit : OptionsFit {} := ⟨by decide, by decide, by decide, by simp⟩
  obtain ⟨frame, connect, hwrite, hread, hstated⟩ := hsaid {} {} hfit rfl
  have hframe : ({} : Client).sendConnect.state.pendingWrites =
      [⟨defaultFrame, .message⟩] := by decide
  rw [hframe] at hwrite
  cases hwrite
  have hdecode : ControlPacket.deserialize.run defaultFrame =
      .ok (.connect { keepAlive := 0 }, []) := rfl
  rw [hdecode] at hread
  cases hread
  exact absurd (hstated.cleanStart.mpr rfl) (by decide)

end Mqtt5.ClientConnectMessage
