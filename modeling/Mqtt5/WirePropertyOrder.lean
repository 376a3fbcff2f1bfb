import Mqtt5.Channels
import Mqtt5.WireReceived

/-!
# The order of properties

A section sets a field for each property that it interprets, and collects the others in
the lists of `properties_t_base`. So it is read alike from two blocks that have the same
properties under each identifier, whatever order different identifiers come in.
-/
namespace Mqtt5.WirePropertyOrder
open ByteParser WirePrimitives WireProperties WireReceived WirePublish WireConnect
open WireSubscribe WireControlPacket Channels

variable {σ : Type} {S : PropertySection σ}

/-- The properties that keep their order: those of one identifier that the section
interprets, the user properties, and those that it does not know. -/
def channel (S : PropertySection σ) (prop : Property) : Option UInt32 :=
  if prop.identifier ∈ 38 :: S.ids.map UInt8.toUInt32 then some prop.identifier else none

/-- Whatever there was before, the property is refused, or it sets the field at place `k` to
a value that does not depend on it. -/
def Sets (handle : σ → Property → Except Fault σ) (base : σ → PropertiesBase)
    (view : σ → List Argument) (k : ℕ) (prop : Property) : Prop :=
  (∀ s, handle s prop = .error mismatchedGet) ∨
    ∃ x, ∀ s, ∃ t, handle s prop = .ok t ∧ base t = base s ∧ view t = (view s).set k x

/-- The fields of a section, one for each identifier it interprets. -/
structure Fields (S : PropertySection σ) where
  view : σ → List Argument
  ext : ∀ {s t}, view s = view t → S.base s = S.base t → s = t
  view_withBase : ∀ s b, view (S.withBase s b) = view s
  sets : ∀ id ∈ S.ids, ∀ value, Sets S.handle S.base view (S.ids.idxOf id) ⟨id.toUInt32, value⟩

/-! ## Properties that are left to the base -/

theorem handleProperty_user (base : PropertiesBase) (value : Value) :
    base.handleProperty ⟨38, value⟩ =
      value.asPair >>= fun kv => pure { base with userProperty := base.userProperty ++ [kv] } := rfl

theorem handleProperty_unknown (base : PropertiesBase) {prop : Property}
    (h : prop.identifier ≠ 38) : base.handleProperty prop =
      .ok { base with unknownProperties := base.unknownProperties ++ [prop] } := if_neg h

theorem asPair_error {value : Value} {e : Fault} (h : value.asPair = .error e) :
    e = mismatchedGet := by
  cases value <;> cases h <;> rfl

/-- A user property and an unknown one join different lists. -/
theorem handleProperty_comm (base : PropertiesBase) (value : Value) {prop : Property}
    (h : prop.identifier ≠ 38) :
    (base.handleProperty ⟨38, value⟩ >>= fun b => b.handleProperty prop) =
      base.handleProperty prop >>= fun b => b.handleProperty ⟨38, value⟩ := by
  rw [handleProperty_unknown base h, handleProperty_user]
  change _ = PropertiesBase.handleProperty
    { base with unknownProperties := base.unknownProperties ++ [prop] } ⟨38, value⟩
  rw [handleProperty_user]
  cases value.asPair with
  | error e => rfl
  | ok kv => exact handleProperty_unknown _ h

theorem handleProperty_total (prop : Property) :
    (∀ base : PropertiesBase, base.handleProperty prop = .error mismatchedGet) ∨
      ∀ base : PropertiesBase, ∃ b, base.handleProperty prop = .ok b := by
  obtain ⟨identifier, value⟩ := prop
  by_cases h : identifier = 38
  · subst h
    cases hvalue : value.asPair with
    | error e =>
      refine .inl fun base => ?_
      rw [handleProperty_user, hvalue, asPair_error hvalue]
      rfl
    | ok kv =>
      refine .inr fun base => ⟨{ base with userProperty := base.userProperty ++ [kv] }, ?_⟩
      rw [handleProperty_user, hvalue]
      rfl
  · exact .inr fun base => ⟨_, handleProperty_unknown base h⟩

/-! ## Properties commute -/

theorem foreign_of_channel {prop : Property} (h : ∀ id ∈ S.ids, prop.identifier ≠ id.toUInt32) :
    channel S prop = if prop.identifier = 38 then some 38 else none := by
  have hids : prop.identifier ∉ S.ids.map UInt8.toUInt32 := by
    intro hmem
    obtain ⟨id, hid, he⟩ := List.mem_map.mp hmem
    exact h id hid he.symm
  by_cases h38 : prop.identifier = 38
  · rw [channel, if_pos (h38 ▸ List.mem_cons_self), if_pos h38, h38]
  · rw [channel, if_neg (by simp [h38, hids]), if_neg h38]

theorem foreign_comm {p q : Property} (hp : ∀ id ∈ S.ids, p.identifier ≠ id.toUInt32)
    (hq : ∀ id ∈ S.ids, q.identifier ≠ id.toUInt32) (hne : channel S p ≠ channel S q) (s : σ) :
    (S.handle s p >>= fun t => S.handle t q) = S.handle s q >>= fun t => S.handle t p := by
  have htwo : ∀ p q : Property, (∀ id ∈ S.ids, p.identifier ≠ id.toUInt32) →
      (∀ id ∈ S.ids, q.identifier ≠ id.toUInt32) →
      (S.handle s p >>= fun t => S.handle t q) = S.withBase s <$>
        ((S.base s).handleProperty p >>= fun b => b.handleProperty q) := by
    intro p q hp hq
    rw [S.passes s p hp]
    cases (S.base s).handleProperty p with
    | error e => rfl
    | ok b =>
      change S.handle (S.withBase s b) q = S.withBase s <$> b.handleProperty q
      rw [S.passes _ q hq, S.base_withBase]
      exact congrArg (· <$> b.handleProperty q) (funext (S.withBase_withBase s b))
  rw [htwo p q hp hq, htwo q p hq hp]
  rw [foreign_of_channel hp, foreign_of_channel hq] at hne
  obtain ⟨i, v⟩ := p
  obtain ⟨j, w⟩ := q
  dsimp only at hne
  by_cases hi : i = 38
  · subst hi
    have hj : j ≠ 38 := by
      rintro rfl
      exact hne rfl
    rw [handleProperty_comm _ _ hj]
  · have hj : j = 38 := by
      by_contra hj
      rw [if_neg hi, if_neg hj] at hne
      exact hne rfl
    subst hj
    rw [handleProperty_comm _ _ hi]

namespace Fields
variable (F : Fields S)
include F

/-- Two fields of the section. -/
theorem own_comm {i j : UInt8} (hi : i ∈ S.ids) (hj : j ∈ S.ids) (hne : i ≠ j) (v w : Value)
    (s : σ) : (S.handle s ⟨i.toUInt32, v⟩ >>= fun t => S.handle t ⟨j.toUInt32, w⟩) =
      S.handle s ⟨j.toUInt32, w⟩ >>= fun t => S.handle t ⟨i.toUInt32, v⟩ := by
  have hplace : S.ids.idxOf i ≠ S.ids.idxOf j := fun he => hne ((List.idxOf_inj hi).mp he)
  obtain hv | ⟨x, hv⟩ := F.sets i hi v
  · obtain hw | ⟨y, hw⟩ := F.sets j hj w
    · rw [hv, hw]
      rfl
    · obtain ⟨t, ht, -⟩ := hw s
      rw [hv, ht]
      exact (hv t).symm
  · obtain ⟨t, ht, hbase, hview⟩ := hv s
    obtain hw | ⟨y, hw⟩ := F.sets j hj w
    · rw [hw, ht]
      exact hw t
    · obtain ⟨u, hu, hubase, huview⟩ := hw s
      obtain ⟨t', ht', htbase', htview'⟩ := hw t
      obtain ⟨u', hu', hubase', huview'⟩ := hv u
      rw [ht, hu]
      change S.handle t _ = S.handle u _
      rw [ht', hu']
      refine congrArg Except.ok (F.ext ?_ ?_)
      · rw [htview', huview', hview, huview, List.set_comm _ _ hplace]
      · rw [htbase', hubase', hbase, hubase]

/-- A field of the section and a property that is left to the base. -/
theorem foreign_own_comm {i : UInt8} (hi : i ∈ S.ids) (v : Value) {q : Property}
    (hq : ∀ id ∈ S.ids, q.identifier ≠ id.toUInt32) (s : σ) :
    (S.handle s ⟨i.toUInt32, v⟩ >>= fun t => S.handle t q) =
      S.handle s q >>= fun t => S.handle t ⟨i.toUInt32, v⟩ := by
  rw [S.passes s q hq]
  obtain hv | ⟨x, hv⟩ := F.sets i hi v
  · obtain herror | htotal := handleProperty_total q
    · rw [hv, herror]
      rfl
    · obtain ⟨b, hb⟩ := htotal (S.base s)
      rw [hv, hb]
      exact (hv (S.withBase s b)).symm
  · obtain ⟨t, ht, hbase, hview⟩ := hv s
    rw [ht]
    change S.handle t q = _
    rw [S.passes t q hq, hbase]
    cases (S.base s).handleProperty q with
    | error e => rfl
    | ok b =>
      obtain ⟨u, hu, hubase, huview⟩ := hv (S.withBase s b)
      change Except.ok (S.withBase t b) = S.handle (S.withBase s b) _
      rw [hu]
      refine congrArg Except.ok (F.ext ?_ ?_)
      · rw [F.view_withBase, huview, F.view_withBase, hview]
      · rw [S.base_withBase, hubase, S.base_withBase]

theorem commutes : Commutes (channel S) S.handle := by
  intro p q hne s
  obtain ⟨a, v⟩ := p
  obtain ⟨b, w⟩ := q
  by_cases hp : ∃ i ∈ S.ids, a = i.toUInt32
  · obtain ⟨i, hi, rfl⟩ := hp
    by_cases hq : ∃ j ∈ S.ids, b = j.toUInt32
    · obtain ⟨j, hj, rfl⟩ := hq
      apply F.own_comm hi hj
      rintro rfl
      exact hne rfl
    · exact F.foreign_own_comm hi v (fun id hid he => hq ⟨id, hid, he⟩) s
  · have hforeign : ∀ id ∈ S.ids, a ≠ id.toUInt32 := fun id hid he => hp ⟨id, hid, he⟩
    by_cases hq : ∃ j ∈ S.ids, b = j.toUInt32
    · obtain ⟨j, hj, rfl⟩ := hq
      exact (F.foreign_own_comm hj w hforeign s).symm
    · exact foreign_comm hforeign (fun id hid he => hq ⟨id, hid, he⟩) hne s

end Fields

/-! ## Blocks -/

/-- The order of properties of different identifiers does not count, whatever follows the
block. -/
def AnyOrder (S : PropertySection σ) : Prop :=
  ∀ {enc enc' : Bytes} {props props' : List Property}, BlockWord enc props →
    BlockWord enc' props' → SameOn (channel S) props props' →
    ∀ rest, S.deserialize.run (enc ++ rest) = S.deserialize.run (enc' ++ rest)

theorem run_block {enc : Bytes} {props : List Property} (h : BlockWord enc props) (rest : Bytes) :
    S.deserialize.run (enc ++ rest) =
      StateT.run (liftM (props.foldlM S.handle S.dflt) : Reader σ) rest := by
  rw [PropertySection.deserialize, readHandled, (readProperties_parses.decodes h).bind_run]

theorem Fields.anyOrder (F : Fields S) : AnyOrder S := by
  intro enc enc' props props' h h' hsame rest
  rw [run_block h, run_block h', F.commutes.foldlM_eq hsame]

/-! ## The sections of the packets -/

theorem asString_error {value : Value} {e : Fault} (h : value.asString = .error e) :
    e = mismatchedGet := by
  cases value <;> cases h <;> rfl

theorem asBinary_error {value : Value} {e : Fault} (h : value.asBinary = .error e) :
    e = mismatchedGet := by
  cases value <;> cases h <;> rfl

theorem asIntegral_error {value : Value} {e : Fault} (h : value.asIntegral = .error e) :
    e = mismatchedGet := by
  cases value <;> cases h <;> rfl

section
variable {handle : σ → Property → Except Fault σ} {base : σ → PropertiesBase}
  {view : σ → List Argument} {prop : Property}

theorem sets_of {β : Type} {g : Value → Except Fault β} {f : σ → β → σ} {x : β → Argument}
    (k : ℕ) (herror : ∀ {value e}, g value = .error e → e = mismatchedGet)
    (hhandle : ∀ s, handle s prop = g prop.value >>= fun y => pure (f s y))
    (hset : ∀ s y, base (f s y) = base s ∧ view (f s y) = (view s).set k (x y)) :
    Sets handle base view k prop := by
  cases hvalue : g prop.value with
  | error e =>
    refine .inl fun s => ?_
    rw [hhandle, hvalue, herror hvalue]
    rfl
  | ok y =>
    refine .inr ⟨x y, fun s => ⟨f s y, ?_, hset s y⟩⟩
    rw [hhandle, hvalue]
    rfl

/-- What a section does with a property of the part that it extends. -/
theorem Sets.part {ρ : Type} {part : ρ → Property → Except Fault ρ} {q : ρ → PropertiesBase}
    {v : ρ → List Argument} {k : ℕ} (h : Sets part q v k prop) {g : σ → ρ} {f : σ → ρ → σ}
    {l : σ → List Argument} {n : ℕ} (hleaves : ∀ s, handle s prop = f s <$> part (g s) prop)
    (hself : ∀ s, f s (g s) = s) (hbase : ∀ s r, base (f s r) = q r)
    (hview : ∀ s r, view (f s r) = l s ++ v r) (hlength : ∀ s, (l s).length = n) :
    Sets handle base view (n + k) prop := by
  obtain h | ⟨x, h⟩ := h
  · refine .inl fun s => ?_
    rw [hleaves, h]
    rfl
  · refine .inr ⟨x, fun s => ?_⟩
    obtain ⟨r, hr, hb, hv⟩ := h (g s)
    refine ⟨f s r, ?_, ?_, ?_⟩
    · rw [hleaves, hr]
      rfl
    · rw [hbase, hb, ← hbase s, hself]
    · rw [hview, hv, ← hself s, hview, hself, ← hlength s,
        List.set_append_right _ _ (Nat.le_add_right _ _), Nat.add_sub_cancel_left]

end

def values (adds : List MaybeAdd) : List Argument := adds.map (·.value)

theorem boolArgument_inj {a b : Bool} : boolArgument a = boolArgument b ↔ a = b := by
  cases a <;> cases b <;> decide

theorem connectConnack_ext {p p' : ConnectConnackProperties}
    (hview : values (connectConnackCost p) = values (connectConnackCost p'))
    (hbase : p.toPropertiesBase = p'.toPropertiesBase) : p = p' := by
  cases p
  cases p'
  simp only [values, connectConnackCost, List.map_cons, List.cons.injEq, Argument.string.injEq,
    Argument.binary.injEq, Argument.integral.injEq, UInt16.toUInt32_inj, and_true] at hview
  cases hbase
  simp only [hview]

theorem connectConnack_sets {id : UInt8} (hid : id ∈ ConnectConnackProperties.ids) (value : Value) :
    Sets ConnectConnackProperties.handle ConnectConnackProperties.toPropertiesBase
      (fun p => values (connectConnackCost p)) (ConnectConnackProperties.ids.idxOf id)
      ⟨id.toUInt32, value⟩ := by
  simp only [ConnectConnackProperties.ids, List.mem_cons, List.not_mem_nil, or_false] at hid
  rcases hid with rfl | rfl | rfl | rfl | rfl | rfl
  · exact sets_of (f := fun p x => { p with authenticationMethod := x }) 0 asString_error
      (fun _ => rfl) fun _ _ => ⟨rfl, rfl⟩
  · exact sets_of (f := fun p x => { p with authenticationData := x }) 1 asBinary_error
      (fun _ => rfl) fun _ _ => ⟨rfl, rfl⟩
  · exact sets_of (f := fun p x => { p with sessionExpiryInterval := x }) 2 asIntegral_error
      (fun _ => rfl) fun _ _ => ⟨rfl, rfl⟩
  · exact sets_of (f := fun p x => { p with maximumPacketSize := x }) 3 asIntegral_error
      (fun _ => rfl) fun _ _ => ⟨rfl, rfl⟩
  · exact sets_of (f := fun p x => { p with topicAliasMaximum := x.toUInt16 })
      (x := fun x => .integral x.toUInt16.toUInt32) 4 asIntegral_error (fun _ => rfl)
      fun _ _ => ⟨rfl, rfl⟩
  · exact sets_of (f := fun p x => { p with receiveMaximum := x.toUInt16 })
      (x := fun x => .integral x.toUInt16.toUInt32) 5 asIntegral_error (fun _ => rfl)
      fun _ _ => ⟨rfl, rfl⟩

def connectFields : Fields ConnectProperties.asSection where
  view p := values (connectCost p)
  ext := by
    intro p p' hview hbase
    have hpart : values (connectConnackCost p.toConnectConnackProperties) =
        values (connectConnackCost p'.toConnectConnackProperties) :=
      List.tail_eq_of_cons_eq (List.tail_eq_of_cons_eq hview)
    have hfirst := List.head_eq_of_cons_eq hview
    have hsecond := List.head_eq_of_cons_eq (List.tail_eq_of_cons_eq hview)
    have hsame := connectConnack_ext hpart hbase
    cases p
    cases p'
    simp only [ConnectProperties.mk.injEq]
    exact ⟨hsame, boolArgument_inj.mp hfirst, boolArgument_inj.mp hsecond⟩
  view_withBase _ _ := rfl
  sets id hid value := by
    rcases List.mem_cons.mp hid with rfl | hid
    · exact sets_of (f := fun p x => { p with requestResponseInformation := asBool x })
        (x := fun x => boolArgument (asBool x)) 0 asIntegral_error (fun _ => rfl)
        fun _ _ => ⟨rfl, rfl⟩
    rcases List.mem_cons.mp hid with rfl | hid
    · exact sets_of (f := fun p x => { p with requestProblemInformation := asBool x })
        (x := fun x => boolArgument (asBool x)) 1 asIntegral_error (fun _ => rfl)
        fun _ _ => ⟨rfl, rfl⟩
    have hplace : ∀ id ∈ ConnectConnackProperties.ids, ConnectProperties.asSection.ids.idxOf id =
        2 + ConnectConnackProperties.ids.idxOf id := by decide +kernel
    have hleaves : ∀ s : ConnectProperties, s.handle ⟨id.toUInt32, value⟩ =
        (fun r => { s with toConnectConnackProperties := r }) <$>
          s.toConnectConnackProperties.handle ⟨id.toUInt32, value⟩ := fun s => s.leaves hid rfl
    rw [hplace id hid]
    exact (connectConnack_sets hid value).part (l := fun p => values ((connectCost p).take 2))
      hleaves (fun _ => rfl) (fun _ _ => rfl) (fun _ _ => rfl) fun _ => rfl

theorem connack_ext {p p' : ConnackProperties}
    (hview : values (connackCost p) = values (connackCost p'))
    (hbase : p.toPropertiesBase = p'.toPropertiesBase) : p = p' := by
  have hpart : p.toConnectConnackProperties = p'.toConnectConnackProperties :=
    connectConnack_ext (congrArg (List.drop 10) hview) hbase
  have hown : values ((connackCost p).take 10) = values ((connackCost p').take 10) :=
    congrArg (List.take 10) hview
  cases p
  cases p'
  simp only [values, connackCost, List.take_succ_cons, List.take_zero, List.map_cons,
    List.cons.injEq, boolArgument_inj, Argument.string.injEq, Argument.integral.injEq,
    UInt8.toUInt32_inj, UInt16.toUInt32_inj, and_true] at hown
  cases hpart
  simp only [hown]

theorem connack_sets {id : UInt8} (hid : id ∈ ConnackProperties.asSection.ids) (value : Value) :
    Sets ConnackProperties.asSection.handle ConnackProperties.asSection.base
      (fun p => values (connackCost p)) (ConnackProperties.asSection.ids.idxOf id)
      ⟨id.toUInt32, value⟩ := by
  change id ∈ [Ids.retainAvailable, Ids.maximumQos, Ids.assignedClientId, Ids.reasonString,
    Ids.wildcardSubscriptionsAvailable, Ids.subscriptionIdentifiersAvailable,
    Ids.sharedSubscriptionAvailable, Ids.serverKeepAlive, Ids.responseInformation,
    Ids.serverReference] ++ ConnectConnackProperties.ids at hid
  rcases List.mem_append.mp hid with hown | hid
  · simp only [List.mem_cons, List.not_mem_nil, or_false] at hown
    rcases hown with rfl | rfl | rfl | rfl | rfl | rfl | rfl | rfl | rfl | rfl
    · exact sets_of (f := fun p x => { p with retainAvailable := asBool x })
        (x := fun x => boolArgument (asBool x)) 0 asIntegral_error (fun _ => rfl)
        fun _ _ => ⟨rfl, rfl⟩
    · exact sets_of (f := fun p x => { p with maximumQos := x.toUInt8 })
        (x := fun x => .integral x.toUInt8.toUInt32) 1 asIntegral_error (fun _ => rfl)
        fun _ _ => ⟨rfl, rfl⟩
    · exact sets_of (f := fun p x => { p with assignedClientId := x }) 2 asString_error
        (fun _ => rfl) fun _ _ => ⟨rfl, rfl⟩
    · exact sets_of (f := fun p x => { p with reasonString := x }) 3 asString_error
        (fun _ => rfl) fun _ _ => ⟨rfl, rfl⟩
    · exact sets_of (f := fun p x => { p with wildcardSubscriptionsAvailable := asBool x })
        (x := fun x => boolArgument (asBool x)) 4 asIntegral_error (fun _ => rfl)
        fun _ _ => ⟨rfl, rfl⟩
    · exact sets_of (f := fun p x => { p with subscriptionIdentifiersAvailable := asBool x })
        (x := fun x => boolArgument (asBool x)) 5 asIntegral_error (fun _ => rfl)
        fun _ _ => ⟨rfl, rfl⟩
    · exact sets_of (f := fun p x => { p with sharedSubscriptionAvailable := asBool x })
        (x := fun x => boolArgument (asBool x)) 6 asIntegral_error (fun _ => rfl)
        fun _ _ => ⟨rfl, rfl⟩
    · exact sets_of (f := fun p x => { p with serverKeepAlive := x.toUInt16 })
        (x := fun x => .integral x.toUInt16.toUInt32) 7 asIntegral_error (fun _ => rfl)
        fun _ _ => ⟨rfl, rfl⟩
    · exact sets_of (f := fun p x => { p with responseInformation := x }) 8 asString_error
        (fun _ => rfl) fun _ _ => ⟨rfl, rfl⟩
    · exact sets_of (f := fun p x => { p with serverReference := x }) 9 asString_error
        (fun _ => rfl) fun _ _ => ⟨rfl, rfl⟩
  · have hplace : ∀ id ∈ ConnectConnackProperties.ids,
        ConnackProperties.asSection.ids.idxOf id = 10 + ConnectConnackProperties.ids.idxOf id := by
      decide +kernel
    have hleaves : ∀ s : ConnackProperties, s.handle ⟨id.toUInt32, value⟩ =
        (fun r => { s with toConnectConnackProperties := r }) <$>
          s.toConnectConnackProperties.handle ⟨id.toUInt32, value⟩ := fun s => s.leaves hid rfl
    rw [hplace id hid]
    exact (connectConnack_sets hid value).part (l := fun p => values ((connackCost p).take 10))
      hleaves (fun _ => rfl) (fun _ _ => rfl) (fun _ _ => rfl) fun _ => rfl

def connackFields : Fields ConnackProperties.asSection where
  view p := values (connackCost p)
  ext := connack_ext
  view_withBase _ _ := rfl
  sets _ hid value := connack_sets hid value

def willFields : Fields WillProperties.asSection where
  view p := values p.adds
  ext := by
    intro p p' hview hbase
    cases p
    cases p'
    simp only [values, WillProperties.adds, List.map_cons, List.cons.injEq, Argument.string.injEq,
      Argument.binary.injEq, Argument.integral.injEq, UInt8.toUInt32_inj, and_true] at hview
    cases hbase
    simp only [hview]
  view_withBase _ _ := rfl
  sets id hid value := by
    simp only [WillProperties.asSection, List.mem_cons, List.not_mem_nil, or_false] at hid
    rcases hid with rfl | rfl | rfl | rfl | rfl | rfl
    · exact sets_of (f := fun p x => { p with contentType := x }) 0 asString_error
        (fun _ => rfl) fun _ _ => ⟨rfl, rfl⟩
    · exact sets_of (f := fun p x => { p with correlationData := x }) 1 asBinary_error
        (fun _ => rfl) fun _ _ => ⟨rfl, rfl⟩
    · exact sets_of (f := fun p x => { p with responseTopic := x }) 2 asString_error
        (fun _ => rfl) fun _ _ => ⟨rfl, rfl⟩
    · exact sets_of (f := fun p x => { p with payloadFormatIndicator := x.toUInt8 })
        (x := fun x => .integral x.toUInt8.toUInt32) 3 asIntegral_error (fun _ => rfl)
        fun _ _ => ⟨rfl, rfl⟩
    · exact sets_of (f := fun p x => { p with delayInterval := x }) 4 asIntegral_error
        (fun _ => rfl) fun _ _ => ⟨rfl, rfl⟩
    · exact sets_of (f := fun p x => { p with messageExpiryInterval := x }) 5 asIntegral_error
        (fun _ => rfl) fun _ _ => ⟨rfl, rfl⟩

/-- The values of a PUBLISH, without its user properties. -/
def publishValues (p : PublishProperties) : List Argument :=
  [.string p.responseTopic, .string p.contentType, .binary p.correlationData,
    .integral p.subscriptionIdentifier, .integral p.messageExpiryInterval,
    .integral p.topicAlias.toUInt32, .integral p.payloadFormatIndicator.toUInt32]

def publishFields : Fields PublishProperties.asSection where
  view := publishValues
  ext := by
    intro p p' hview hbase
    cases p
    cases p'
    simp only [publishValues, List.cons.injEq, Argument.string.injEq,
      Argument.binary.injEq, Argument.integral.injEq, UInt8.toUInt32_inj, UInt16.toUInt32_inj,
      and_true] at hview
    cases hbase
    simp only [hview]
  view_withBase _ _ := rfl
  sets id hid value := by
    simp only [PublishProperties.asSection, List.mem_cons, List.not_mem_nil, or_false] at hid
    rcases hid with rfl | rfl | rfl | rfl | rfl | rfl | rfl
    · exact sets_of (f := fun p x => { p with responseTopic := x }) 0 asString_error
        (fun _ => rfl) fun _ _ => ⟨rfl, rfl⟩
    · exact sets_of (f := fun p x => { p with contentType := x }) 1 asString_error
        (fun _ => rfl) fun _ _ => ⟨rfl, rfl⟩
    · exact sets_of (f := fun p x => { p with correlationData := x }) 2 asBinary_error
        (fun _ => rfl) fun _ _ => ⟨rfl, rfl⟩
    · exact sets_of (f := fun p x => { p with subscriptionIdentifier := x }) 3 asIntegral_error
        (fun _ => rfl) fun _ _ => ⟨rfl, rfl⟩
    · exact sets_of (f := fun p x => { p with messageExpiryInterval := x.toUInt16.toUInt32 })
        (x := fun x => .integral x.toUInt16.toUInt32) 4 asIntegral_error (fun _ => rfl)
        fun _ _ => ⟨rfl, rfl⟩
    · exact sets_of (f := fun p x => { p with topicAlias := x.toUInt16 })
        (x := fun x => .integral x.toUInt16.toUInt32) 5 asIntegral_error (fun _ => rfl)
        fun _ _ => ⟨rfl, rfl⟩
    · exact sets_of (f := fun p x => { p with payloadFormatIndicator := x.toUInt8 })
        (x := fun x => .integral x.toUInt8.toUInt32) 6 asIntegral_error (fun _ => rfl)
        fun _ _ => ⟨rfl, rfl⟩

def disconnectFields : Fields DisconnectProperties.asSection where
  view p := values p.adds
  ext := by
    intro p p' hview hbase
    cases p
    cases p'
    simp only [values, DisconnectProperties.adds, List.map_cons, List.cons.injEq,
      Argument.string.injEq, Argument.integral.injEq, and_true] at hview
    cases hbase
    simp only [hview]
  view_withBase _ _ := rfl
  sets id hid value := by
    simp only [DisconnectProperties.asSection, List.mem_cons, List.not_mem_nil, or_false] at hid
    rcases hid with rfl | rfl | rfl
    · exact sets_of (f := fun p x => { p with sessionExpiryInterval := x }) 0 asIntegral_error
        (fun _ => rfl) fun _ _ => ⟨rfl, rfl⟩
    · exact sets_of (f := fun p x => { p with reasonString := x }) 1 asString_error
        (fun _ => rfl) fun _ _ => ⟨rfl, rfl⟩
    · exact sets_of (f := fun p x => { p with serverReference := x }) 2 asString_error
        (fun _ => rfl) fun _ _ => ⟨rfl, rfl⟩

def reasonFields : Fields ReasonProperties.asSection where
  view p := values p.adds
  ext := by
    intro p p' hview hbase
    cases p
    cases p'
    simp only [values, ReasonProperties.adds, List.map_cons, List.cons.injEq,
      Argument.string.injEq, and_true] at hview
    cases hbase
    simp only [hview]
  view_withBase _ _ := rfl
  sets id hid value := by
    simp only [ReasonProperties.asSection, List.mem_cons, List.not_mem_nil, or_false] at hid
    rcases hid with rfl
    · exact sets_of (f := fun p x => { p with reasonString := x }) 0 asString_error
        (fun _ => rfl) fun _ _ => ⟨rfl, rfl⟩

def subscribeFields : Fields SubscribeProperties.asSection where
  view p := values p.adds
  ext := by
    intro p p' hview hbase
    cases p
    cases p'
    simp only [values, SubscribeProperties.adds, List.map_cons, List.cons.injEq,
      Argument.integral.injEq, and_true] at hview
    cases hbase
    simp only [hview]
  view_withBase _ _ := rfl
  sets id hid value := by
    simp only [SubscribeProperties.asSection, List.mem_cons, List.not_mem_nil, or_false] at hid
    rcases hid with rfl
    · exact sets_of (f := fun p x => { p with subscriptionIdentifier := x }) 0 asIntegral_error
        (fun _ => rfl) fun _ _ => ⟨rfl, rfl⟩

def unsubscribeFields : Fields UnsubscribeProperties.asSection where
  view _ := []
  ext := by
    intro p p' _ hbase
    cases p
    cases p'
    cases hbase
    rfl
  view_withBase _ _ := rfl
  sets _ hid := absurd hid List.not_mem_nil

/-- Every section of every packet. -/
theorem order_of_properties :
    AnyOrder ConnectProperties.asSection ∧ AnyOrder WillProperties.asSection ∧
    AnyOrder ConnackProperties.asSection ∧ AnyOrder PublishProperties.asSection ∧
    AnyOrder ReasonProperties.asSection ∧ AnyOrder SubscribeProperties.asSection ∧
    AnyOrder UnsubscribeProperties.asSection ∧ AnyOrder DisconnectProperties.asSection :=
  ⟨connectFields.anyOrder, willFields.anyOrder, connackFields.anyOrder, publishFields.anyOrder,
    reasonFields.anyOrder, subscribeFields.anyOrder, unsubscribeFields.anyOrder,
    disconnectFields.anyOrder⟩

end Mqtt5.WirePropertyOrder
