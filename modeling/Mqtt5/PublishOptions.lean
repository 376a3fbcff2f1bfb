import Mqtt5.ClientTurns
import Mqtt5.TwoPasses

/-!
# Options and callables of a publish

`publisher` and `reusable_publisher` separate their arguments: options are applied to the
message at once, and what is left for `start` is run there. Three of the option types are
missing from `is_publish_option`, so they are kept for `start` among the callables.
-/
namespace Mqtt5.PublishOptions
open WirePrimitives WirePublish WireControlPacket ClientState TwoPasses

/-! ## The options and their separation -/

/-- The types of `publish_options`, `late_modifier` apart. -/
inductive PublishOption
  | qualityOfService (qos : QualityOfService)
  | retain (b : Bool)
  | responseTopic (rt : Bytes)
  | contentType (value : Bytes)
  | correlationData (value : Bytes)
  /-- A `std::chrono::seconds`, which counts with 64 bits. -/
  | messageExpiryInterval (value : Int64)
  | payloadFormatIndicator (value : UInt8)
  | topicAlias (value : UInt16)
  deriving DecidableEq, Repr

/-- The call operators. The property of the expiry interval counts with 32 bits. -/
def PublishOption.apply (publish : Publish) : PublishOption → Publish
  | .qualityOfService qos => publish.setQualityOfService qos
  | .retain b => publish.setRetain b
  | .responseTopic rt =>
      { publish with properties := { publish.properties with responseTopic := rt } }
  | .contentType value =>
      { publish with properties := { publish.properties with contentType := value } }
  | .correlationData value =>
      { publish with properties := { publish.properties with correlationData := value } }
  | .messageExpiryInterval value =>
      { publish with properties := { publish.properties with
          messageExpiryInterval := value.toUInt64.toUInt32 } }
  | .payloadFormatIndicator value =>
      { publish with properties := { publish.properties with payloadFormatIndicator := value } }
  | .topicAlias value =>
      { publish with properties := { publish.properties with topicAlias := value } }

/-- `is_publish_option`; the types it does not list can all be called with a publish. -/
def isPublishOption : PublishOption → Bool
  | .qualityOfService _ | .retain _ | .responseTopic _ | .contentType _ | .topicAlias _ => true
  | .correlationData _ | .messageExpiryInterval _ | .payloadFormatIndicator _ => false

/-- An argument; callables of the user are known by names. -/
inductive Argument (κ : Type)
  | option (opt : PublishOption)
  /-- The enum itself. -/
  | qualityOfService (qos : QualityOfService)
  | payloadFormatIndicator (indicator : UInt8)
  | callable (k : κ)
  | lateModifier (k : κ)
  deriving DecidableEq, Repr

/-- What a `late_modifier` holds. -/
inductive LateModifier (κ : Type)
  | callable (k : κ)
  | option (opt : PublishOption)
  deriving DecidableEq, Repr

structure OptionsAndModifiers (κ : Type) where
  options : List PublishOption := []
  modifiers : List (LateModifier κ) := []

variable {κ : Type}

def addOne (oam : OptionsAndModifiers κ) : Argument κ → OptionsAndModifiers κ
  | .qualityOfService qos => { oam with options := oam.options ++ [.qualityOfService qos] }
  | .payloadFormatIndicator indicator =>
      { oam with options := oam.options ++ [.payloadFormatIndicator indicator] }
  | .option opt =>
      if isPublishOption opt then { oam with options := oam.options ++ [opt] }
      else { oam with modifiers := oam.modifiers ++ [.option opt] }
  | .callable k => { oam with modifiers := oam.modifiers ++ [.callable k] }
  | .lateModifier k => { oam with modifiers := oam.modifiers ++ [.callable k] }

def nextSeparated (oam : OptionsAndModifiers κ) : List (Argument κ) → OptionsAndModifiers κ
  | [] => oam
  | next :: rest => nextSeparated (addOne oam next) rest

def separateOptionsModifiers (next : List (Argument κ)) : OptionsAndModifiers κ :=
  nextSeparated {} next

/-! ## The senders -/

/-- `publish_sender::operation`, its receiver apart. -/
structure Operation (κ : Type) where
  message : Publish
  modifyingFunction : List (LateModifier κ)

/-- The modifying function, with `call` for what the callables do when it runs. -/
def LateModifier.apply (call : κ → Publish → Publish) (pub : Publish) : LateModifier κ → Publish
  | .callable k => call k pub
  | .option opt => opt.apply pub

def Operation.modified (op : Operation κ) (call : κ → Publish → Publish) : Publish :=
  op.modifyingFunction.foldl (fun pub mod => mod.apply call pub) op.message

def Operation.start (op : Operation κ) (call : κ → Publish → Publish) (c : Client) : Reaction :=
  c.startPublish (op.modified call)

/-- `publish_sender` and `reusable_publish_sender` have the same members. -/
structure PublishSender (κ : Type) where
  message : Publish
  modifyingFunction : List (LateModifier κ)

def publisher (topic payload : Bytes) (opts : List (Argument κ)) : PublishSender κ :=
  let optsAndModifiers := separateOptionsModifiers opts
  { message := optsAndModifiers.options.foldl (fun pub opt => opt.apply pub) { topic, payload }
    modifyingFunction := optsAndModifiers.modifiers }

def reusablePublisher (topic payload : Bytes) (opts : List (Argument κ)) : PublishSender κ :=
  let optsAndModifiers := separateOptionsModifiers opts
  { message := optsAndModifiers.options.foldl (fun pub opt => opt.apply pub) { topic, payload }
    modifyingFunction := optsAndModifiers.modifiers }

namespace PublishSender

/-- `publish_sender::connect` -/
def connect (s : PublishSender κ) : Operation κ := ⟨s.message, s.modifyingFunction⟩

/-- `reusable_publish_sender::connect` copies its members, and can be called again. -/
def connectReusable (s : PublishSender κ) : Operation κ × PublishSender κ :=
  (⟨s.message, s.modifyingFunction⟩, s)

/-- The operations of so many calls of `connect`. -/
def operations (s : PublishSender κ) : ℕ → List (Operation κ)
  | 0 => []
  | n + 1 => s.connectReusable.1 :: s.connectReusable.2.operations n

end PublishSender

/-! ## What the message should be -/

/-- The option that an argument stands for. -/
def Argument.libraryOption : Argument κ → Option PublishOption
  | .option opt => some opt
  | .qualityOfService qos => some (.qualityOfService qos)
  | .payloadFormatIndicator indicator => some (.payloadFormatIndicator indicator)
  | .callable _ | .lateModifier _ => none

def Argument.userCallable : Argument κ → Option κ
  | .callable k | .lateModifier k => some k
  | _ => none

/-- All options in the order of the arguments, then all callables and late modifiers. -/
def optionsThenCallables (call : κ → Publish → Publish) (topic payload : Bytes)
    (opts : List (Argument κ)) : Publish :=
  let base := (opts.filterMap Argument.libraryOption).foldl (fun pub opt => opt.apply pub)
    { topic, payload }
  (opts.filterMap Argument.userCallable).foldl (fun pub k => call k pub) base

/-- Equal but for the packet identifier. -/
def SameApart (p q : Publish) : Prop :=
  { p with packetIdentifier := 0 } = { q with packetIdentifier := 0 }

/-- What `start` sends, or queues to be sent, is the message `expected`. -/
structure Sends (op : Operation κ) (call : κ → Publish → Publish) (expected : Publish) : Prop where
  modified : SameApart (op.modified call) expected
  sent : ∀ c p, Effect.sent (.publish p) .message ∈ (op.start call c).effects → SameApart p expected
  queued : ∀ c next, next ∈ (op.start call c).state.queuedPublishes →
    next ∈ c.queuedPublishes ∨ SameApart next.message expected

/-- Whatever the callables do, every operation of a publisher sends what it should. -/
def OptionsFirst (opts : List (Argument κ)) : Prop :=
  ∀ (call : κ → Publish → Publish) (topic payload : Bytes),
    Sends (publisher topic payload opts).connect call
      (optionsThenCallables call topic payload opts) ∧
    ∀ n, ∀ op ∈ (reusablePublisher topic payload opts).operations n,
      Sends op call (optionsThenCallables call topic payload opts)

/-! ## When it is -/

/-- The option is kept for `start`. -/
def Argument.misplaced : Argument κ → Bool
  | .option opt => !isPublishOption opt
  | _ => false

def Argument.isCall (a : Argument κ) : Bool := a.userCallable.isSome

/-- The payload format indicator that an option sets. -/
def PublishOption.indicator : PublishOption → Option UInt8
  | .payloadFormatIndicator value => some value
  | _ => none

def Argument.indicator (a : Argument κ) : Option UInt8 :=
  a.libraryOption.bind PublishOption.indicator

/-- No option that is kept for `start` stands behind a callable; and of the payload format
indicators, the last one asks for what the last one kept for `start` does. -/
structure InOrder (opts : List (Argument κ)) : Prop where
  callables : opts.Pairwise fun a b => a.isCall = true → b.misplaced = false
  indicator : ∀ value,
    ((opts.filter Argument.misplaced).filterMap Argument.indicator).getLast? = some value →
      (opts.filterMap Argument.indicator).getLast? = some value

/-! ## Publishers as runs of their arguments -/

def Argument.apply (call : κ → Publish → Publish) (a : Argument κ) (pub : Publish) : Publish :=
  match a with
  | .option opt => opt.apply pub
  | .qualityOfService qos => pub.setQualityOfService qos
  | .payloadFormatIndicator indicator => (PublishOption.payloadFormatIndicator indicator).apply pub
  | .callable k | .lateModifier k => call k pub

/-- What `separate_options_modifiers` leaves for `start`. -/
def Argument.late (a : Argument κ) : Bool := a.isCall || a.misplaced

theorem late_option (opt : PublishOption) :
    (Argument.option opt : Argument κ).late = !isPublishOption opt := rfl

/-- An argument that is not late is applied at once, as an option; a late one is kept. -/
theorem addOne_cases (oam : OptionsAndModifiers κ) (a : Argument κ) :
    (a.late = false ∧ ∃ opt : PublishOption, (∀ call pub, opt.apply pub = a.apply call pub) ∧
      addOne oam a = { oam with options := oam.options ++ [opt] }) ∨
    (a.late = true ∧ ∃ mod : LateModifier κ, (∀ call pub, mod.apply call pub = a.apply call pub) ∧
      addOne oam a = { oam with modifiers := oam.modifiers ++ [mod] }) := by
  cases a with
  | option opt =>
    cases hopt : isPublishOption opt with
    | true =>
      refine .inl ⟨by rw [late_option, hopt]; rfl, opt, fun _ _ => rfl, ?_⟩
      rw [addOne, if_pos hopt]
    | false =>
      refine .inr ⟨by rw [late_option, hopt]; rfl, .option opt, fun _ _ => rfl, ?_⟩
      rw [addOne, if_neg (by rw [hopt]; decide)]
  | qualityOfService qos => exact .inl ⟨rfl, .qualityOfService qos, fun _ _ => rfl, rfl⟩
  | payloadFormatIndicator indicator =>
    exact .inl ⟨rfl, .payloadFormatIndicator indicator, fun _ _ => rfl, rfl⟩
  | callable k | lateModifier k => exact .inr ⟨rfl, .callable k, fun _ _ => rfl, rfl⟩

theorem options_nextSeparated (call : κ → Publish → Publish) (oam : OptionsAndModifiers κ)
    (opts : List (Argument κ)) (pub : Publish) :
    (nextSeparated oam opts).options.foldl (fun pub opt => opt.apply pub) pub =
      run (Argument.apply call) (opts.filter fun a => !a.late)
        (oam.options.foldl (fun pub opt => opt.apply pub) pub) := by
  induction opts generalizing oam with
  | nil => rfl
  | cons a opts ih =>
    rw [nextSeparated, ih]
    obtain ⟨hlate, opt, happly, hadd⟩ | ⟨hlate, _, -, hadd⟩ := addOne_cases oam a
    · rw [hadd, List.filter_cons_of_pos (by rw [hlate]; rfl), run_cons, List.foldl_append,
        ← happly call]
      rfl
    · rw [hadd, List.filter_cons_of_neg (by rw [hlate]; decide)]

theorem modifiers_nextSeparated (call : κ → Publish → Publish) (oam : OptionsAndModifiers κ)
    (opts : List (Argument κ)) (pub : Publish) :
    (nextSeparated oam opts).modifiers.foldl (fun pub mod => mod.apply call pub) pub =
      run (Argument.apply call) (opts.filter Argument.late)
        (oam.modifiers.foldl (fun pub mod => mod.apply call pub) pub) := by
  induction opts generalizing oam with
  | nil => rfl
  | cons a opts ih =>
    rw [nextSeparated, ih]
    obtain ⟨hlate, _, -, hadd⟩ | ⟨hlate, mod, happly, hadd⟩ := addOne_cases oam a
    · rw [hadd, List.filter_cons_of_neg (by rw [hlate]; decide)]
    · rw [hadd, List.filter_cons_of_pos hlate, run_cons, List.foldl_append, ← happly call]
      rfl

theorem modified_eq (call : κ → Publish → Publish) (topic payload : Bytes)
    (opts : List (Argument κ)) :
    (publisher topic payload opts).connect.modified call =
      run (Argument.apply call) (putOff Argument.late opts) { topic, payload } := by
  rw [putOff, run_append]
  change (nextSeparated {} opts).modifiers.foldl (fun pub mod => mod.apply call pub)
    ((nextSeparated {} opts).options.foldl (fun pub opt => opt.apply pub) _) = _
  rw [modifiers_nextSeparated call, options_nextSeparated call]
  rfl

theorem optionsThenCallables_eq (call : κ → Publish → Publish) (topic payload : Bytes)
    (opts : List (Argument κ)) :
    optionsThenCallables call topic payload opts =
      run (Argument.apply call) (putOff Argument.isCall opts) { topic, payload } := by
  have hoptions : ∀ pub, (opts.filterMap Argument.libraryOption).foldl
      (fun pub opt => opt.apply pub) pub =
        run (Argument.apply call) (opts.filter fun a => !a.isCall) pub := by
    induction opts with
    | nil => exact fun _ => rfl
    | cons a opts ih =>
      intro pub
      cases a with
      | option opt => exact ih _
      | qualityOfService qos => exact ih _
      | payloadFormatIndicator indicator => exact ih _
      | callable k => exact ih pub
      | lateModifier k => exact ih pub
  have hcallables : ∀ pub, (opts.filterMap Argument.userCallable).foldl (fun pub k => call k pub) pub =
      run (Argument.apply call) (opts.filter Argument.isCall) pub := by
    clear hoptions
    induction opts with
    | nil => exact fun _ => rfl
    | cons a opts ih =>
      intro pub
      cases a with
      | option opt => exact ih pub
      | qualityOfService qos => exact ih pub
      | payloadFormatIndicator indicator => exact ih pub
      | callable k => exact ih _
      | lateModifier k => exact ih _
  rw [optionsThenCallables, hcallables, hoptions, putOff, run_append]

/-! ## What is sent -/

theorem startPublish_message (c : Client) (message : Publish) :
    (∀ p, Effect.sent (.publish p) .message ∈ (c.startPublish message).effects →
      SameApart p message) ∧
    ∀ next, next ∈ (c.startPublish message).state.queuedPublishes →
      next ∈ c.queuedPublishes ∨ SameApart next.message message := by
  by_cases hqos : message.qualityOfService = qos0
  · rw [c.startPublish_of_qos0 hqos]
    by_cases hencodes : Encodes (.publish message)
    · obtain ⟨_, hsend⟩ := c.sendMessage_of_encodes hencodes
      rw [hsend, CallMachine.Reaction.andThen_of_not_threw rfl]
      refine ⟨fun p hp => ?_, fun next hnext => .inl hnext⟩
      obtain rfl : p = message := by simpa using hp
      rfl
    · rw [c.sendMessage_of_not_encodes hencodes, CallMachine.Reaction.andThen_of_threw rfl]
      exact ⟨by simp, fun next hnext => .inl hnext⟩
  · by_cases hfree : c.serverSendQuota > 0
    · rw [c.startPublish_of_free hqos hfree]
      by_cases hencodes : Encodes (.publish (c.nextStarter message).message)
      · obtain ⟨_, hstart⟩ := Client.startFn_of_encodes
          { c with nextPacketIdentifier := c.nextPacketIdentifier.advance } hencodes
        rw [hstart]
        refine ⟨fun p hp => ?_, fun next hnext => .inl hnext⟩
        obtain rfl : p = (c.nextStarter message).message := by simpa using hp
        rfl
      · rw [Client.startFn_of_not_encodes _ hencodes]
        exact ⟨by simp, fun next hnext => .inl hnext⟩
    · rw [c.startPublish_of_taken hqos hfree]
      refine ⟨by simp, fun next hnext => ?_⟩
      obtain hnext | hnext := List.mem_append.mp hnext
      · exact .inl hnext
      · rw [List.mem_singleton.mp hnext]
        exact .inr rfl

theorem sends_of_modified {op : Operation κ} {call : κ → Publish → Publish} {expected : Publish}
    (h : SameApart (op.modified call) expected) : Sends op call expected := by
  refine ⟨h, ?_, ?_⟩
  · intro c p hp
    exact ((startPublish_message c (op.modified call)).1 p hp).trans h
  · intro c next hnext
    exact ((startPublish_message c (op.modified call)).2 next hnext).imp id fun hsame =>
      hsame.trans h

/-- Every call of `connect` finds the sender as it was made. -/
theorem mem_operations {s : PublishSender κ} {n : ℕ} {op : Operation κ} (h : op ∈ s.operations n) :
    op = s.connect := by
  induction n with
  | zero => cases h
  | succ n ih =>
    obtain rfl | h := List.mem_cons.mp h
    · rfl
    · exact ih h

theorem optionsFirst_iff_modified {opts : List (Argument κ)} :
    OptionsFirst opts ↔ ∀ (call : κ → Publish → Publish) (topic payload : Bytes),
      SameApart (run (Argument.apply call) (putOff Argument.late opts) { topic, payload })
        (run (Argument.apply call) (putOff Argument.isCall opts) { topic, payload }) := by
  constructor
  · intro h call topic payload
    rw [← modified_eq, ← optionsThenCallables_eq]
    exact (h call topic payload).1.modified
  · intro h call topic payload
    have hsends : Sends (publisher topic payload opts).connect call
        (optionsThenCallables call topic payload opts) := by
      apply sends_of_modified
      rw [modified_eq, optionsThenCallables_eq]
      exact h call topic payload
    refine ⟨hsends, fun n op hop => ?_⟩
    rw [mem_operations hop]
    exact hsends

/-! ## Options that commute -/

theorem properties_setQualityOfService (pub : Publish) (qos : QualityOfService) :
    (pub.setQualityOfService qos).properties = pub.properties := by
  unfold Publish.setQualityOfService
  split
  · rfl
  · rfl

theorem setQualityOfService_properties (pub : Publish) (qos : QualityOfService)
    (properties : PublishProperties) :
    ({ pub with properties } : Publish).setQualityOfService qos =
      { pub.setQualityOfService qos with properties } := by
  unfold Publish.setQualityOfService
  split
  · rfl
  · rfl

def withIndicator (value : UInt8) (pub : Publish) : Publish :=
  { pub with properties := { pub.properties with payloadFormatIndicator := value } }

theorem publish_ext {p q : Publish} (h : withIndicator 0 p = withIndicator 0 q)
    (hi : p.properties.payloadFormatIndicator = q.properties.payloadFormatIndicator) : p = q := by
  have hback : ∀ pub : Publish, pub =
      withIndicator pub.properties.payloadFormatIndicator (withIndicator 0 pub) := fun _ => rfl
  rw [hback p, hback q, h, hi]

/-- An option, seen by a message without payload format indicator. -/
def PublishOption.applyBeside (pub : Publish) (opt : PublishOption) : Publish :=
  if opt.indicator.isSome then pub else opt.apply pub

theorem withIndicator_apply (opt : PublishOption) (pub : Publish) :
    withIndicator 0 (opt.apply pub) = opt.applyBeside (withIndicator 0 pub) := by
  cases opt with
  | qualityOfService qos =>
    have hset := setQualityOfService_properties pub qos
      { pub.properties with payloadFormatIndicator := 0 }
    have hsame := properties_setQualityOfService pub qos
    change withIndicator 0 (pub.setQualityOfService qos) = _
    rw [withIndicator, hsame]
    exact hset.symm
  | _ => rfl

theorem indicator_apply (opt : PublishOption) (pub : Publish) :
    (opt.apply pub).properties.payloadFormatIndicator =
      opt.indicator.getD pub.properties.payloadFormatIndicator := by
  cases opt with
  | qualityOfService qos =>
    exact congrArg PublishProperties.payloadFormatIndicator
      (properties_setQualityOfService pub qos)
  | _ => rfl

/-- The options that are kept for `start` set other members than the ones that are not. -/
theorem apply_comm {opt opt' : PublishOption} (h : isPublishOption opt = false)
    (h' : isPublishOption opt' = true) (pub : Publish) :
    opt'.apply (opt.apply pub) = opt.apply (opt'.apply pub) := by
  cases opt' with
  | qualityOfService qos =>
    have hsame := properties_setQualityOfService pub qos
    cases opt with
    | correlationData value | messageExpiryInterval value | payloadFormatIndicator value =>
      simp only [PublishOption.apply]
      rw [setQualityOfService_properties, hsame]
    | _ => cases h
  | correlationData value | messageExpiryInterval value | payloadFormatIndicator value => cases h'
  | _ =>
    cases opt with
    | correlationData value | messageExpiryInterval value | payloadFormatIndicator value => rfl
    | _ => cases h

theorem applyBeside_comm {opt opt' : PublishOption} (h : isPublishOption opt = false)
    (h' : isPublishOption opt' = true ∨ opt'.indicator.isSome) (pub : Publish) :
    opt'.applyBeside (opt.applyBeside pub) = opt.applyBeside (opt'.applyBeside pub) := by
  unfold PublishOption.applyBeside
  by_cases hi : opt.indicator.isSome
  · rw [if_pos hi, if_pos hi]
  · by_cases hi' : opt'.indicator.isSome
    · rw [if_pos hi', if_pos hi']
    · rw [if_neg hi, if_neg hi', if_neg hi', if_neg hi, apply_comm h (h'.resolve_right hi')]

/-! ## Arguments that are options -/

theorem exists_libraryOption {a : Argument κ} (h : a.isCall = false) :
    ∃ opt, a.libraryOption = some opt := by
  cases a with
  | callable k | lateModifier k => cases h
  | _ => exact ⟨_, rfl⟩

theorem apply_of_libraryOption {a : Argument κ} {opt : PublishOption}
    (h : a.libraryOption = some opt) (call : κ → Publish → Publish) (pub : Publish) :
    a.apply call pub = opt.apply pub := by
  cases a with
  | callable k | lateModifier k => cases h
  | _ => cases h; rfl

theorem libraryOption_of_misplaced {a : Argument κ} (h : a.misplaced = true) :
    ∃ opt, a = .option opt ∧ isPublishOption opt = false := by
  cases a with
  | option opt => exact ⟨opt, rfl, by simpa [Argument.misplaced] using h⟩
  | _ => cases h

/-- An option that is applied at once is listed, or it is an enum. -/
theorem listed_of_not_misplaced {a : Argument κ} {opt : PublishOption}
    (h : a.libraryOption = some opt) (hm : a.misplaced = false) :
    isPublishOption opt = true ∨ opt.indicator.isSome := by
  cases a with
  | option opt' =>
    cases h
    exact .inl (by simpa [Argument.misplaced] using hm)
  | qualityOfService qos => cases h; exact .inl rfl
  | payloadFormatIndicator indicator => cases h; exact .inr rfl
  | callable k | lateModifier k => cases h

theorem misplaced_not_isCall {a : Argument κ} (h : a.misplaced = true) : a.isCall = false := by
  obtain ⟨opt, rfl, -⟩ := libraryOption_of_misplaced h
  rfl

theorem indicator_of_isCall {a : Argument κ} (h : a.isCall = true) : a.indicator = none := by
  cases a with
  | callable k | lateModifier k => rfl
  | _ => cases h

/-! ## The condition is enough -/

/-- What an argument that is an option does beside the payload format indicator. -/
def Argument.beside (a : Argument κ) (pub : Publish) : Publish :=
  (a.libraryOption.map fun opt => opt.applyBeside pub).getD pub

theorem withIndicator_run (call : κ → Publish → Publish) {opts : List (Argument κ)}
    (h : ∀ a ∈ opts, a.isCall = false) (pub : Publish) :
    withIndicator 0 (run (Argument.apply call) opts pub) =
      run Argument.beside opts (withIndicator 0 pub) := by
  apply view_run (withIndicator 0)
  intro a ha pub
  obtain ⟨opt, hopt⟩ := exists_libraryOption (h a ha)
  rw [apply_of_libraryOption hopt, withIndicator_apply, Argument.beside, hopt]
  rfl

/-- The last indicator counts, as long as the callables leave it alone. -/
theorem indicator_run (call : κ → Publish → Publish) {opts : List (Argument κ)}
    (h : ∀ a ∈ opts, a.isCall = true → ∀ pub,
      (a.apply call pub).properties.payloadFormatIndicator =
        pub.properties.payloadFormatIndicator) (pub : Publish) :
    (run (Argument.apply call) opts pub).properties.payloadFormatIndicator =
      (opts.filterMap Argument.indicator).getLast?.getD pub.properties.payloadFormatIndicator := by
  rw [← run_assign]
  apply view_run fun pub : Publish => pub.properties.payloadFormatIndicator
  intro a ha pub
  cases hcall : a.isCall with
  | true =>
    rw [h a ha hcall, indicator_of_isCall hcall]
    rfl
  | false =>
    obtain ⟨opt, hopt⟩ := exists_libraryOption hcall
    rw [apply_of_libraryOption hopt, indicator_apply, Argument.indicator, hopt]
    rfl

theorem run_putOff_misplaced (call : κ → Publish → Publish) {opts : List (Argument κ)}
    (h : ∀ a ∈ opts, a.isCall = false)
    (hindicator : ∀ value,
      ((opts.filter Argument.misplaced).filterMap Argument.indicator).getLast? = some value →
        (opts.filterMap Argument.indicator).getLast? = some value) (pub : Publish) :
    run (Argument.apply call) (putOff Argument.misplaced opts) pub =
      run (Argument.apply call) opts pub := by
  have hput : ∀ a ∈ putOff Argument.misplaced opts, a.isCall = false :=
    fun a ha => h a (mem_putOff.mp ha)
  have hnot : ∀ a : Argument κ, a.isCall = false → a.isCall = true → ∀ pub,
      (a.apply call pub).properties.payloadFormatIndicator =
        pub.properties.payloadFormatIndicator := by
    intro a hfalse htrue
    rw [hfalse] at htrue
    cases htrue
  apply publish_ext
  · rw [withIndicator_run call hput, withIndicator_run call h]
    apply run_putOff
    intro a ha b hb hlate hearly pub
    obtain ⟨opt, rfl, hopt⟩ := libraryOption_of_misplaced hlate
    obtain ⟨opt', hopt'⟩ := exists_libraryOption (h b hb)
    simp only [Argument.beside, hopt']
    exact applyBeside_comm hopt (listed_of_not_misplaced hopt' hearly) pub
  · rw [indicator_run call fun a ha => hnot a (hput a ha),
      indicator_run call fun a ha => hnot a (h a ha), getLast_putOff_iff.mpr hindicator]

/-- What is kept for `start`: first the options, when no callable stands before one. -/
theorem filter_late {opts : List (Argument κ)}
    (h : opts.Pairwise fun a b => a.isCall = true → b.misplaced = false) :
    opts.filter Argument.late = opts.filter Argument.misplaced ++ opts.filter Argument.isCall := by
  induction opts with
  | nil => rfl
  | cons a opts ih =>
    obtain ⟨ha, hopts⟩ := List.pairwise_cons.mp h
    cases hcall : a.isCall with
    | true =>
      have hnone : opts.filter Argument.misplaced = [] :=
        List.filter_eq_nil_iff.mpr fun b hb => by rw [ha b hb hcall]; decide
      have hplaced : a.misplaced = false := by
        by_contra hm
        rw [misplaced_not_isCall (by simpa using hm)] at hcall
        cases hcall
      have hlate : a.late = true := by rw [Argument.late, hcall]; rfl
      rw [List.filter_cons_of_pos hlate, List.filter_cons_of_neg (by rw [hplaced]; decide),
        List.filter_cons_of_pos hcall, ih hopts, hnone]
      rfl
    | false =>
      have hlate : a.late = a.misplaced := by rw [Argument.late, hcall]; rfl
      rw [List.filter_cons, List.filter_cons, hlate, ih hopts,
        List.filter_cons_of_neg (by rw [hcall]; decide)]
      split <;> rfl

theorem isCall_of_mem_options {opts : List (Argument κ)} {a : Argument κ}
    (h : a ∈ opts.filter fun a => !a.isCall) : a.isCall = false := by
  simpa using (List.mem_filter.mp h).2

/-- The indicators are those of the options. -/
theorem filterMap_indicator_options (opts : List (Argument κ)) :
    (opts.filter fun a => !a.isCall).filterMap Argument.indicator =
      opts.filterMap Argument.indicator := by
  have hall : (opts.filter fun a => !a.isCall).filterMap Argument.indicator =
      (opts.filter fun _ => true).filterMap Argument.indicator := by
    apply filterMap_filter_congr
    intro a _
    cases hcall : a.isCall with
    | true => exact .inr (indicator_of_isCall hcall)
    | false => exact .inl rfl
  rwa [List.filter_eq_self.mpr fun _ _ => rfl] at hall

theorem filter_misplaced_options (opts : List (Argument κ)) :
    (opts.filter fun a => !a.isCall).filter Argument.misplaced = opts.filter Argument.misplaced := by
  rw [List.filter_filter]
  apply List.filter_congr
  intro a _
  cases hm : a.misplaced with
  | true => rw [misplaced_not_isCall hm]; rfl
  | false => rfl

theorem filter_now_options (opts : List (Argument κ)) :
    (opts.filter fun a => !a.isCall).filter (fun a => !a.misplaced) =
      opts.filter fun a => !a.late := by
  rw [List.filter_filter]
  apply List.filter_congr
  intro a _
  rw [Argument.late, Bool.not_or, Bool.and_comm]

theorem run_of_inOrder {opts : List (Argument κ)} (h : InOrder opts) (call : κ → Publish → Publish)
    (pub : Publish) :
    run (Argument.apply call) (putOff Argument.late opts) pub =
      run (Argument.apply call) (putOff Argument.isCall opts) pub := by
  have hindicator : ∀ value, (((opts.filter fun a => !a.isCall).filter
      Argument.misplaced).filterMap Argument.indicator).getLast? = some value →
        ((opts.filter fun a => !a.isCall).filterMap Argument.indicator).getLast? = some value := by
    rw [filter_misplaced_options, filterMap_indicator_options]
    exact h.indicator
  have hoptions := run_putOff_misplaced call (fun a => isCall_of_mem_options) hindicator pub
  rw [putOff, filter_now_options, filter_misplaced_options] at hoptions
  rw [putOff, putOff, filter_late h.callables, ← List.append_assoc, run_append, hoptions,
    ← run_append]

/-! ## The condition is needed -/

section Indicator

/-- Callables that do nothing. -/
def leaveAlone : κ → Publish → Publish := fun _ pub => pub

theorem indicator_leaveAlone (opts : List (Argument κ)) (pub : Publish) :
    (run (Argument.apply leaveAlone) opts pub).properties.payloadFormatIndicator =
      (opts.filterMap Argument.indicator).getLast?.getD pub.properties.payloadFormatIndicator := by
  apply indicator_run
  intro a _ hcall pub
  cases a with
  | callable k | lateModifier k => rfl
  | _ => cases hcall

theorem filterMap_indicator_late (opts : List (Argument κ)) :
    (putOff Argument.late opts).filterMap Argument.indicator =
      (putOff Argument.misplaced opts).filterMap Argument.indicator := by
  have hkind : ∀ a : Argument κ, a.late = a.misplaced ∨ a.indicator = none := by
    intro a
    cases hcall : a.isCall with
    | true => exact .inr (indicator_of_isCall hcall)
    | false => exact .inl (by rw [Argument.late, hcall]; rfl)
  rw [putOff, putOff, List.filterMap_append, List.filterMap_append]
  congr 1
  · apply filterMap_filter_congr
    intro a _
    exact (hkind a).imp (fun h => by rw [h]) id
  · apply filterMap_filter_congr
    intro a _
    exact hkind a

theorem filterMap_indicator_isCall (opts : List (Argument κ)) :
    (putOff Argument.isCall opts).filterMap Argument.indicator =
      opts.filterMap Argument.indicator := by
  have hcalls : (opts.filter Argument.isCall).filterMap Argument.indicator = [] :=
    List.filterMap_eq_nil_iff.mpr fun a ha => indicator_of_isCall (List.mem_filter.mp ha).2
  rw [putOff, List.filterMap_append, filterMap_indicator_options, hcalls, List.append_nil]

theorem getLast_indicator {opts : List (Argument κ)}
    (h : SameApart (run (Argument.apply leaveAlone) (putOff Argument.late opts) {})
      (run (Argument.apply leaveAlone) (putOff Argument.isCall opts) {})) :
    ((putOff Argument.misplaced opts).filterMap Argument.indicator).getLast? =
      (opts.filterMap Argument.indicator).getLast? := by
  have hsame := congrArg (fun pub : Publish => pub.properties.payloadFormatIndicator) h
  simp only [indicator_leaveAlone, filterMap_indicator_late, filterMap_indicator_isCall] at hsame
  have hnil : (putOff Argument.misplaced opts).filterMap Argument.indicator = [] ↔
      opts.filterMap Argument.indicator = [] := filterMap_putOff_eq_nil
  rw [← List.getLast?_eq_none_iff, ← List.getLast?_eq_none_iff] at hnil
  cases hcode : ((putOff Argument.misplaced opts).filterMap Argument.indicator).getLast? with
  | none => exact (hnil.mp hcode).symm
  | some v =>
    cases hall : (opts.filterMap Argument.indicator).getLast? with
    | none =>
      rw [hnil.mpr hall] at hcode
      cases hcode
    | some w =>
      rw [hcode, hall] at hsame
      exact congrArg some hsame

end Indicator

section Callables

/-- Another value for the member that an option kept for `start` sets. -/
def PublishOption.other : PublishOption → PublishOption
  | .correlationData value => .correlationData (value ++ [0])
  | .messageExpiryInterval value =>
      .messageExpiryInterval (if value.toUInt64.toUInt32 = 0 then 1 else 0)
  | .payloadFormatIndicator value => .payloadFormatIndicator (value + 1)
  | opt => opt

/-- A callable that sets another value, and leaves a 2 in the payload where it finds that the
value has been set back. -/
def spoil (opt : PublishOption) (pub : Publish) : Publish :=
  if pub.payload = [] then { opt.other.apply pub with payload := [1] }
  else if opt.other.apply pub = pub then pub
  else { pub with payload := [2] }

def spoiling (opt : PublishOption) : κ → Publish → Publish := fun _ => spoil opt

/-- The member has its other value, and no callable has found it set back. -/
def Kept (opt : PublishOption) (pub : Publish) : Prop :=
  pub.payload = [1] ∧ opt.other.apply pub = pub

def Spoilt (opt : PublishOption) (pub : Publish) : Prop :=
  (pub.payload ≠ [] ∧ opt.other.apply pub ≠ pub) ∨ pub.payload = [2]

theorem other_apply_ne {opt : PublishOption} (h : isPublishOption opt = false) (pub : Publish) :
    opt.other.apply (opt.apply pub) ≠ opt.apply pub := by
  intro hsame
  cases opt with
  | correlationData value =>
    have hvalue := congrArg (fun pub : Publish => pub.properties.correlationData) hsame
    simp [PublishOption.other, PublishOption.apply] at hvalue
  | messageExpiryInterval value =>
    have hvalue := congrArg (fun pub : Publish => pub.properties.messageExpiryInterval) hsame
    simp only [PublishOption.other, PublishOption.apply] at hvalue
    split_ifs at hvalue with hzero
    · rw [hzero] at hvalue
      cases hvalue
    · exact hzero hvalue.symm
  | payloadFormatIndicator value =>
    have hvalue := congrArg (fun pub : Publish => pub.properties.payloadFormatIndicator) hsame
    simp [PublishOption.other, PublishOption.apply] at hvalue
  | _ => cases h

/-- What the other option does, as a function of the properties. -/
theorem other_apply {opt : PublishOption} (h : isPublishOption opt = false) :
    ∃ f : PublishProperties → PublishProperties, (∀ properties, f (f properties) = f properties) ∧
      ∀ pub, opt.other.apply pub = { pub with properties := f pub.properties } := by
  cases opt with
  | correlationData value =>
    exact ⟨fun properties => { properties with correlationData := value ++ [0] },
      fun _ => rfl, fun _ => rfl⟩
  | messageExpiryInterval value =>
    exact ⟨fun properties => { properties with messageExpiryInterval :=
      (if value.toUInt64.toUInt32 = 0 then 1 else 0 : Int64).toUInt64.toUInt32 },
      fun _ => rfl, fun _ => rfl⟩
  | payloadFormatIndicator value =>
    exact ⟨fun properties => { properties with payloadFormatIndicator := value + 1 },
      fun _ => rfl, fun _ => rfl⟩
  | _ => cases h

/-- Whether the member has its other value is seen from the properties alone. -/
theorem other_fixed_congr {opt : PublishOption} (h : isPublishOption opt = false) {p q : Publish}
    (hsame : p.properties = q.properties) : opt.other.apply p = p ↔ opt.other.apply q = q := by
  obtain ⟨f, -, hf⟩ := other_apply h
  have hfixed : ∀ pub : Publish, opt.other.apply pub = pub ↔ f pub.properties = pub.properties := by
    intro pub
    rw [hf]
    constructor
    · exact fun hpub => congrArg Publish.properties hpub
    · intro hproperties
      rw [hproperties]
  rw [hfixed, hfixed, hsame]

theorem not_sameApart {opt : PublishOption} (h : isPublishOption opt = false) {p q : Publish}
    (hp : Spoilt opt p) (hq : Kept opt q) : ¬ SameApart p q := by
  intro hsame
  have hequal : ({ p with packetIdentifier := 0 } : Publish) = { q with packetIdentifier := 0 } :=
    hsame
  have hpayload := congrArg Publish.payload hequal
  have hproperties := congrArg Publish.properties hequal
  change p.payload = q.payload at hpayload
  change p.properties = q.properties at hproperties
  obtain ⟨-, hne⟩ | hfound := hp
  · exact hne ((other_fixed_congr h hproperties).mpr hq.2)
  · rw [hfound, hq.1] at hpayload
    cases hpayload

theorem payload_apply (opt : PublishOption) (pub : Publish) :
    (opt.apply pub).payload = pub.payload := by
  cases opt with
  | qualityOfService qos =>
    simp only [PublishOption.apply, Publish.setQualityOfService]
    split
    · rfl
    · rfl
  | _ => rfl

theorem spoil_payload (opt : PublishOption) (pub : Publish) : (spoil opt pub).payload ≠ [] := by
  unfold spoil
  split_ifs with hempty hfixed
  · exact List.cons_ne_nil _ _
  · exact hempty
  · exact List.cons_ne_nil _ _

theorem kept_spoil_first {opt : PublishOption} (h : isPublishOption opt = false)
    {pub : Publish} (hempty : pub.payload = []) : Kept opt (spoil opt pub) := by
  obtain ⟨f, hidem, hf⟩ := other_apply h
  rw [spoil, if_pos hempty]
  refine ⟨rfl, ?_⟩
  simp only [hf, hidem]

theorem kept_spoil {opt : PublishOption} {pub : Publish} (h : Kept opt pub) :
    Kept opt (spoil opt pub) := by
  have hne : pub.payload ≠ [] := by
    rw [h.1]
    exact List.cons_ne_nil _ _
  rw [spoil, if_neg hne, if_pos h.2]
  exact h

theorem spoilt_spoil {opt : PublishOption} {pub : Publish} (h : Spoilt opt pub) :
    Spoilt opt (spoil opt pub) := by
  have hne : pub.payload ≠ [] := by
    obtain ⟨hne, -⟩ | hfound := h
    · exact hne
    · rw [hfound]
      exact List.cons_ne_nil _ _
  rw [spoil, if_neg hne]
  split_ifs with hfixed
  · exact h
  · exact .inr rfl

theorem apply_spoiling {a : Argument κ} (h : a.isCall = true) (opt : PublishOption)
    (pub : Publish) : a.apply (spoiling opt) pub = spoil opt pub := by
  cases a with
  | callable k | lateModifier k => rfl
  | _ => cases h

/-- Once a callable has run, the payload is not empty. -/
theorem payload_run (opt : PublishOption) {xs : List (Argument κ)} {pub : Publish}
    (h : pub.payload ≠ [] ∨ ∃ a ∈ xs, a.isCall = true) :
    (run (Argument.apply (spoiling opt)) xs pub).payload ≠ [] := by
  induction xs generalizing pub with
  | nil => exact h.resolve_right (by simp)
  | cons a xs ih =>
    rw [run_cons]
    apply ih
    cases hcall : a.isCall with
    | true =>
      rw [apply_spoiling hcall]
      exact .inl (spoil_payload opt pub)
    | false =>
      obtain ⟨opt', hopt⟩ := exists_libraryOption hcall
      rw [apply_of_libraryOption hopt, payload_apply]
      refine h.imp id fun ⟨b, hb, hbcall⟩ => ?_
      obtain rfl | hb := List.mem_cons.mp hb
      · rw [hcall] at hbcall
        cases hbcall
      · exact ⟨b, hb, hbcall⟩

theorem payload_run_options {call : κ → Publish → Publish} {xs : List (Argument κ)}
    (h : ∀ a ∈ xs, a.isCall = false) {pub : Publish} (hempty : pub.payload = []) :
    (run (Argument.apply call) xs pub).payload = [] := by
  apply run_invariant (I := fun pub : Publish => pub.payload = []) _ hempty
  intro a ha pub hpub
  obtain ⟨opt, hopt⟩ := exists_libraryOption (h a ha)
  rw [apply_of_libraryOption hopt, payload_apply]
  exact hpub

/-- All options first: the first callable sets the member, and every other finds it so. -/
theorem kept_run {opt : PublishOption} (h : isPublishOption opt = false)
    {opts : List (Argument κ)} (hcall : ∃ a ∈ opts, a.isCall = true) :
    Kept opt (run (Argument.apply (spoiling opt)) (putOff Argument.isCall opts) {}) := by
  have hempty :
      (run (Argument.apply (spoiling opt)) (opts.filter fun a => !a.isCall) {}).payload = [] :=
    payload_run_options (fun a => isCall_of_mem_options) rfl
  obtain ⟨a, ha, hacall⟩ := hcall
  have hcalls : ∀ b ∈ opts.filter Argument.isCall, b.isCall = true :=
    fun b hb => (List.mem_filter.mp hb).2
  obtain ⟨b, bs, hbs⟩ := List.exists_cons_of_ne_nil
    (List.ne_nil_of_mem (List.mem_filter.mpr ⟨ha, hacall⟩))
  rw [putOff, run_append]
  rw [hbs] at hcalls ⊢
  rw [run_cons, apply_spoiling (hcalls b (by simp))]
  apply run_invariant _ (kept_spoil_first h hempty)
  intro c hc pub hpub
  rw [apply_spoiling (hcalls c (by simp [hc]))]
  exact kept_spoil hpub

/-- An option kept for `start` behind a callable sets the member back. -/
theorem spoilt_run {opt : PublishOption} (h : isPublishOption opt = false)
    {before after : List (Argument κ)} (hcall : ∃ a ∈ before, a.isCall = true)
    (hlast : ∀ a ∈ after, a.misplaced = false) :
    Spoilt opt (run (Argument.apply (spoiling opt))
      (putOff Argument.late (before ++ .option opt :: after)) {}) := by
  have hlate : (Argument.option opt : Argument κ).late = true := by rw [late_option, h]; rfl
  rw [putOff, run_append, List.filter_append, List.filter_cons_of_pos hlate, run_append, run_cons]
  obtain ⟨a, ha, hacall⟩ := hcall
  have halate : a.late = true := by rw [Argument.late, hacall]; rfl
  apply run_invariant
  · intro b hb pub hpub
    obtain ⟨hmem, hblate⟩ := List.mem_filter.mp hb
    have hbcall : b.isCall = true := by
      rw [Argument.late, hlast b hmem, Bool.or_false] at hblate
      exact hblate
    rw [apply_spoiling hbcall]
    exact spoilt_spoil hpub
  · refine .inl ⟨?_, other_apply_ne h _⟩
    rw [Argument.apply, payload_apply]
    exact payload_run opt (.inr ⟨a, List.mem_filter.mpr ⟨ha, halate⟩, hacall⟩)

end Callables

/-! ## When the options come first -/

/-- The callables may do anything, so no option that is kept for `start` may follow one. -/
theorem callables_of_optionsFirst {opts : List (Argument κ)} (h : OptionsFirst opts) :
    opts.Pairwise fun a b => a.isCall = true → b.misplaced = false := by
  by_contra hbehind
  obtain ⟨before, b, after, rfl, hb, hcall, hlast⟩ := exists_last_behind hbehind
  obtain ⟨opt, rfl, hopt⟩ := libraryOption_of_misplaced hb
  have hsame := optionsFirst_iff_modified.mp h (spoiling opt) [] []
  obtain ⟨a, ha, hacall⟩ := hcall
  have hsomewhere : ∃ a ∈ before ++ Argument.option opt :: after, a.isCall = true :=
    ⟨a, List.mem_append_left _ ha, hacall⟩
  exact not_sameApart hopt (spoilt_run hopt ⟨a, ha, hacall⟩ hlast) (kept_run hopt hsomewhere) hsame

theorem indicator_of_optionsFirst {opts : List (Argument κ)} (h : OptionsFirst opts) (value : UInt8)
    (hlate : ((opts.filter Argument.misplaced).filterMap Argument.indicator).getLast? = some value) :
    (opts.filterMap Argument.indicator).getLast? = some value := by
  have hsame := optionsFirst_iff_modified.mp h leaveAlone [] []
  exact getLast_putOff_iff.mp (getLast_indicator hsame) value hlate

theorem options_first_iff (opts : List (Argument κ)) : OptionsFirst opts ↔ InOrder opts := by
  constructor
  · intro h
    exact ⟨callables_of_optionsFirst h, indicator_of_optionsFirst h⟩
  · intro h
    apply optionsFirst_iff_modified.mpr
    intro call topic payload
    rw [run_of_inOrder h]
    rfl

/-- The callable sets an expiry interval of 1, and the option behind it sets 10 over it. -/
theorem expiry_interval_overrides_callable :
    ¬ OptionsFirst [.callable (), .option (.messageExpiryInterval 10)] := by
  intro h
  let expireSoon : Unit → Publish → Publish := fun _ pub =>
    { pub with properties := { pub.properties with messageExpiryInterval := 1 } }
  have hsame := (h expireSoon [116] []).1.modified
  have hinterval := congrArg (fun pub : Publish => pub.properties.messageExpiryInterval) hsame
  exact absurd hinterval (by decide)

end Mqtt5.PublishOptions
