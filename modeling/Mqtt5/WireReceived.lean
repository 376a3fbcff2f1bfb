import Mqtt5.WireLimits

/-!
# What a section of properties holds after it was read

Every property of a block either sets one field of its section or joins the properties of
`properties_t_base`. What a section holds in the end is fit for the wire again, and needs
no more bytes than the block that it was read from.
-/
namespace Mqtt5.WireReceived
open ByteParser ByteWriter WirePrimitives WireProperties WireLimits WirePublish WireConnect
open WireSubscribe WireControlPacket

variable {α σ : Type}

theorem foldlM_invariant {handle : σ → α → Except Fault σ} {size : α → ℕ} {I : σ → ℕ → Prop}
    {as : List α} (step : ∀ a ∈ as, ∀ s s' n, I s n → handle s a = .ok s' → I s' (n + size a))
    {s s' : σ} {n : ℕ} (h : I s n) (hrun : as.foldlM handle s = .ok s') :
    I s' (n + (as.map size).sum) := by
  induction as generalizing s n with
  | nil =>
    cases hrun
    exact h
  | cons a as ih =>
    rw [List.foldlM_cons] at hrun
    obtain ⟨t, ha, hrun⟩ := bind_ok.mp hrun
    have ht := step a List.mem_cons_self s t n h ha
    have hrest := ih (fun b hb => step b (List.mem_cons_of_mem a hb)) ht hrun
    rwa [List.map_cons, List.sum_cons, ← Nat.add_assoc]

/-! ## Additions -/

def additionSize (a : MaybeAdd) : ℕ := if a.present then propertySize a.made else 0

def additionsSize (adds : List MaybeAdd) : ℕ := (adds.map additionSize).sum

theorem additionSize_le (a : MaybeAdd) : additionSize a ≤ propertySize a.made := by
  rw [additionSize]
  split
  · exact le_rfl
  · exact Nat.zero_le _

@[simp] theorem additionsSize_nil : additionsSize [] = 0 := rfl

@[simp] theorem additionsSize_cons (a : MaybeAdd) (as : List MaybeAdd) :
    additionsSize (a :: as) = additionSize a + additionsSize as := rfl

theorem blockSize_presentProperties (adds : List MaybeAdd) :
    blockSize (presentProperties adds) = additionsSize adds := by
  induction adds with
  | nil => rfl
  | cons a adds ih =>
    rw [additionsSize_cons, ← ih, additionSize]
    cases hp : a.present with
    | false => simp [presentProperties, hp]
    | true => simp [presentProperties, hp]

theorem additionsSize_set_le (adds : List MaybeAdd) (k : ℕ) (new : MaybeAdd) :
    additionsSize (adds.set k new) ≤ additionsSize adds + additionSize new := by
  induction adds generalizing k with
  | nil => exact Nat.zero_le _
  | cons a adds ih =>
    cases k with
    | zero =>
      rw [List.set_cons_zero, additionsSize_cons, additionsSize_cons]
      omega
    | succ k =>
      have := ih k
      rw [List.set_cons_succ, additionsSize_cons, additionsSize_cons]
      omega

/-- The additions change in one place, to the value of the property. -/
def Stores (adds adds' : List MaybeAdd) (prop : Property) : Prop :=
  ∃ k new, adds' = adds.set k new ∧ new.id.toUInt32 = prop.identifier ∧
    valueSize new.made.value = valueSize prop.value ∧ new.value.Sized

theorem Stores.size {adds adds' : List MaybeAdd} {prop : Property} (h : Stores adds adds' prop) :
    additionsSize adds' ≤ additionsSize adds + propertySize prop := by
  obtain ⟨k, new, rfl, hid, hvalue, -⟩ := h
  have hmade : propertySize new.made = propertySize prop := by
    rw [propertySize, propertySize, made_identifier, hid, hvalue]
  exact (additionsSize_set_le adds k new).trans (by have := additionSize_le new; omega)

theorem Stores.sized {adds adds' : List MaybeAdd} {prop : Property} (h : Stores adds adds' prop)
    (hadds : ∀ a ∈ adds, a.value.Sized) : ∀ a ∈ adds', a.value.Sized := by
  obtain ⟨k, new, rfl, -, -, hsized⟩ := h
  intro a ha
  rcases List.mem_or_eq_of_mem_set ha with ha | rfl
  · exact hadds a ha
  · exact hsized

theorem Stores.append {adds adds' : List MaybeAdd} {prop : Property} (h : Stores adds adds' prop)
    (first : List MaybeAdd) : Stores (first ++ adds) (first ++ adds') prop := by
  obtain ⟨k, new, rfl, hnew⟩ := h
  refine ⟨first.length + k, new, ?_, hnew⟩
  rw [List.set_append_right _ _ (by omega), Nat.add_sub_cancel_left]

theorem made_value {present : Bool} {id : UInt8} {val : Argument} {v : Value}
    (h : assignValue (selectedKind id.toUInt32) val = .ok v) :
    (⟨present, id, val⟩ : MaybeAdd).made.value = v := by
  unfold MaybeAdd.made Property.ofValue
  rw [h]
  rfl

section
variable {b : σ → PropertiesBase} {c : σ → List MaybeAdd} {s s' : σ} {id : UInt8} {value : Value}

theorem stores_string {f : Bytes → σ} (h : (value.asString >>= fun x => pure (f x)) = .ok s')
    (hw : Property.WellTyped ⟨id.toUInt32, value⟩) (hkind : selectedKind id.toUInt32 = .string)
    (k : ℕ) (hset : ∀ x, b (f x) = b s ∧
      ∃ present, c (f x) = (c s).set k ⟨present, id, .string x⟩) :
    b s' = b s ∧ Stores (c s) (c s') ⟨id.toUInt32, value⟩ := by
  cases value with
  | string x =>
    cases h
    obtain ⟨hb, present, hc⟩ := hset x
    refine ⟨hb, k, _, hc, rfl, ?_, hw.sized⟩
    rw [made_value (v := .string x) (by rw [hkind]; rfl)]
  | _ => cases h

theorem stores_binary {f : Bytes → σ} (h : (value.asBinary >>= fun x => pure (f x)) = .ok s')
    (hw : Property.WellTyped ⟨id.toUInt32, value⟩) (hkind : selectedKind id.toUInt32 = .binary)
    (k : ℕ) (hset : ∀ x, b (f x) = b s ∧
      ∃ present, c (f x) = (c s).set k ⟨present, id, .binary x⟩) :
    b s' = b s ∧ Stores (c s) (c s') ⟨id.toUInt32, value⟩ := by
  cases value with
  | binary x =>
    cases h
    obtain ⟨hb, present, hc⟩ := hset x
    refine ⟨hb, k, _, hc, rfl, ?_, hw.sized⟩
    rw [made_value (v := .binary x) (by rw [hkind]; rfl)]
  | _ => cases h

/-- Numbers of one kind take the same number of bytes. -/
theorem stores_integral {f : UInt32 → σ}
    (h : (value.asIntegral >>= fun x => pure (f x)) = .ok s')
    (hw : Property.WellTyped ⟨id.toUInt32, value⟩)
    (hkind : selectedKind id.toUInt32 ∈ [Kind.byte, .int16, .int32])
    (k : ℕ) (hset : ∀ x, b (f x) = b s ∧
      ∃ present y, c (f x) = (c s).set k ⟨present, id, .integral y⟩) :
    b s' = b s ∧ Stores (c s) (c s') ⟨id.toUInt32, value⟩ := by
  have hvalue : value.kind = selectedKind id.toUInt32 := hw.kind
  obtain ⟨x, -, hx⟩ := bind_ok.mp h
  cases hx
  obtain ⟨hb, present, y, hc⟩ := hset x
  refine ⟨hb, k, _, hc, rfl, ?_, trivial⟩
  simp only [List.mem_cons, List.not_mem_nil, or_false] at hkind
  rcases hkind with hkind | hkind | hkind
  all_goals
    rw [made_value (by rw [hkind]; rfl)]
    rw [hkind] at hvalue
    cases value <;> first | rfl | cases hvalue

end

/-! ## Words -/

theorem varlenSize_le_of_word {enc : Bytes} {n : ℕ} (h : Base128.Word enc n) :
    varlenSize n ≤ enc.length := h.digits_length_le

theorem framedSize_mono {m n : ℕ} (h : m ≤ n) : framedSize m ≤ framedSize n :=
  Nat.add_le_add (Base128.digits_length_mono h) h

theorem le_maxLength_of_word {enc : Bytes} {n : ℕ} (h : Base128.Word enc n)
    (hlen : enc.length ≤ 4) : n ≤ maxLength := by
  have hlt := h.lt
  have hpow := Nat.pow_le_pow_right (n := 128) (by decide) hlen
  unfold maxLength
  norm_num at hpow
  omega

theorem valueSize_le_of_word {v : Value} {enc : Bytes} (h : ValueWord v enc) :
    valueSize v ≤ enc.length ∧ v.Sized := by
  cases v with
  | byte v => exact ⟨by rw [h]; exact le_rfl, trivial⟩
  | int16 v => exact ⟨by rw [h, fixedIntBytes_length]; exact le_rfl, trivial⟩
  | int32 v => exact ⟨by rw [h, fixedIntBytes_length]; exact le_rfl, trivial⟩
  | varlen v => exact ⟨varlenSize_le_of_word h.1, trivial⟩
  | string v => exact ⟨by rw [h.1, sizedBytes_length]; exact le_rfl, h.2⟩
  | binary v => exact ⟨by rw [h.1, sizedBytes_length]; exact le_rfl, h.2⟩
  | pair v =>
    refine ⟨?_, h.2⟩
    rw [h.1, pairBytes, List.length_append, sizedBytes_length, sizedBytes_length]
    exact le_rfl

/-- A property that was read has a value of its own type and an identifier of 28 bits. -/
structure Readable (prop : Property) : Prop where
  wellTyped : prop.WellTyped
  counted : prop.identifier.toNat ≤ maxLength

theorem readable_of_word {prop : Property} {enc : Bytes} (h : PropertyWord enc prop) :
    Readable prop ∧ propertySize prop ≤ enc.length := by
  obtain ⟨idEnc, valueEnc, rfl, ⟨hid, hlen⟩, hkind, hvalue⟩ := h
  obtain ⟨hsize, hsized⟩ := valueSize_le_of_word hvalue
  refine ⟨⟨⟨hkind, hsized⟩, le_maxLength_of_word hid hlen⟩, ?_⟩
  rw [List.length_append]
  exact Nat.add_le_add (varlenSize_le_of_word hid) hsize

theorem readable_of_star {props : List Property} {body : Bytes} (h : Star PropertyWord body props) :
    (∀ p ∈ props, Readable p) ∧ blockSize props ≤ body.length := by
  induction h with
  | nil => exact ⟨nofun, le_rfl⟩
  | @cons e es p ps head tail ih =>
    obtain ⟨hp, hsize⟩ := readable_of_word head
    refine ⟨List.forall_mem_cons.mpr ⟨hp, ih.1⟩, ?_⟩
    rw [blockSize_cons, List.length_append]
    exact Nat.add_le_add hsize ih.2

/-! ## Sections -/

/-- Everything that the handler of `properties_t_base` can do. -/
theorem handleProperty_cases {base b : PropertiesBase} {prop : Property}
    (h : base.handleProperty prop = .ok b) :
    (∃ kv, prop = ⟨38, .pair kv⟩ ∧ b = { base with userProperty := base.userProperty ++ [kv] }) ∨
      (prop.identifier ≠ 38 ∧
        b = { base with unknownProperties := base.unknownProperties ++ [prop] }) := by
  obtain ⟨identifier, value⟩ := prop
  rw [PropertiesBase.handleProperty] at h
  split at h
  case isTrue h38 =>
    change identifier = 38 at h38
    cases value with
    | pair kv =>
      cases h
      exact .inl ⟨kv, by rw [h38], rfl⟩
    | _ => cases h
  case isFalse h38 =>
    cases h
    exact .inr ⟨h38, rfl⟩

/-- What is known of a section's handler: `cost` lists the additions of a section that
holds some data, and a property the section interprets changes one of them. -/
structure Account (S : PropertySection σ) where
  cost : σ → List MaybeAdd
  stores : ∀ {s s' : σ} {prop : Property} {id : UInt8}, S.handle s prop = .ok s' →
    prop.WellTyped → id ∈ S.ids → prop.identifier = id.toUInt32 →
    S.base s' = S.base s ∧ Stores (cost s) (cost s') prop
  carries : ∀ s, ∀ a ∈ S.adds s, ∃ c ∈ cost s, c.value = a.value
  base_dflt : S.base S.dflt = {}
  sized_dflt : ∀ c ∈ cost S.dflt, c.value.Sized
  nothing : additionsSize (cost S.dflt) = 0
  cost_withBase : ∀ s b, cost (S.withBase s b) = cost s

namespace Account
variable {S : PropertySection σ} (A : Account S)

/-- The section is fit for the wire, in at most `n` bytes. -/
structure Holds (s : σ) (n : ℕ) : Prop where
  own : ∀ c ∈ A.cost s, c.value.Sized
  users : ∀ kv ∈ (S.base s).userProperty, kv.Sized
  unknown : ∀ p ∈ (S.base s).unknownProperties, Readable p
  foreign : ∀ p ∈ (S.base s).unknownProperties,
    p.identifier ≠ 38 ∧ ∀ id ∈ S.ids, p.identifier ≠ id.toUInt32
  size : additionsSize (A.cost s) + blockSize (userProperties (S.base s).userProperty) +
    blockSize (S.base s).unknownProperties ≤ n

variable {A}

theorem holds_dflt : A.Holds S.dflt 0 where
  own := A.sized_dflt
  users := by rw [A.base_dflt]; exact nofun
  unknown := by rw [A.base_dflt]; exact nofun
  foreign := by rw [A.base_dflt]; exact nofun
  size := by
    rw [A.base_dflt, A.nothing]
    exact le_rfl

theorem Holds.mono {s : σ} {m n : ℕ} (h : A.Holds s m) (hle : m ≤ n) : A.Holds s n :=
  { h with size := h.size.trans hle }

/-- A property that the section leaves to its base. -/
theorem Holds.withBase {s : σ} {prop : Property} {b : PropertiesBase} {n : ℕ} (h : A.Holds s n)
    (hr : Readable prop) (hids : ∀ id ∈ S.ids, prop.identifier ≠ id.toUInt32)
    (hb : (S.base s).handleProperty prop = .ok b) :
    A.Holds (S.withBase s b) (n + propertySize prop) := by
  have hsize := h.size
  obtain ⟨kv, rfl, rfl⟩ | ⟨h38, rfl⟩ := handleProperty_cases hb
  · refine ⟨?_, ?_, ?_, ?_, ?_⟩
    · rw [A.cost_withBase]
      exact h.own
    · rw [S.base_withBase]
      exact fun kv' hkv => (List.mem_append.mp hkv).elim (h.users kv')
        fun hkv => List.mem_singleton.mp hkv ▸ hr.wellTyped.sized
    · rw [S.base_withBase]
      exact h.unknown
    · rw [S.base_withBase]
      exact h.foreign
    · have hlast : ∀ users : List KeyValuePair, blockSize (userProperties (users ++ [kv])) =
          blockSize (userProperties users) + propertySize ⟨38, .pair kv⟩ := by
        intro users
        simp [userProperties]
      rw [A.cost_withBase, S.base_withBase, hlast]
      dsimp only
      omega
  · refine ⟨?_, ?_, ?_, ?_, ?_⟩
    · rw [A.cost_withBase]
      exact h.own
    · rw [S.base_withBase]
      exact h.users
    · rw [S.base_withBase]
      exact fun p hp => (List.mem_append.mp hp).elim (h.unknown p)
        fun hp => List.mem_singleton.mp hp ▸ hr
    · rw [S.base_withBase]
      exact fun p hp => (List.mem_append.mp hp).elim (h.foreign p)
        fun hp => List.mem_singleton.mp hp ▸ ⟨h38, hids⟩
    · rw [A.cost_withBase, S.base_withBase, blockSize_append, blockSize_cons, blockSize_nil]
      dsimp only
      omega

theorem Holds.handle {s s' : σ} {prop : Property} {n : ℕ} (h : A.Holds s n) (hr : Readable prop)
    (hs : S.handle s prop = .ok s') : A.Holds s' (n + propertySize prop) := by
  by_cases hown : ∃ id ∈ S.ids, prop.identifier = id.toUInt32
  · obtain ⟨id, hid, he⟩ := hown
    obtain ⟨hbase, hstores⟩ := A.stores hs hr.wellTyped hid he
    have hsize := h.size
    have hcost := hstores.size
    refine ⟨hstores.sized h.own, ?_, ?_, ?_, ?_⟩
    · rw [hbase]
      exact h.users
    · rw [hbase]
      exact h.unknown
    · rw [hbase]
      exact h.foreign
    · rw [hbase]
      omega
  · have hids : ∀ id ∈ S.ids, prop.identifier ≠ id.toUInt32 :=
      fun id hid he => hown ⟨id, hid, he⟩
    rw [S.passes s prop hids] at hs
    obtain ⟨b, hb, hs⟩ := bind_ok.mp hs
    cases hs
    exact h.withBase hr hids hb

/-- A block is handled property by property. -/
theorem holds_of_block {s : σ} {props : List Property} (hr : ∀ p ∈ props, Readable p)
    (h : props.foldlM S.handle S.dflt = .ok s) : A.Holds s (blockSize props) := by
  have hrun := foldlM_invariant (fun p hp s s' n hs hstep => hs.handle (hr p hp) hstep)
    (A.holds_dflt) h
  rwa [Nat.zero_add] at hrun

/-- What a section holds after it was read needs no more than the bytes that were read. -/
theorem holds_of_run {s : σ} {xs rest : Bytes} (h : S.deserialize.run xs = .ok (s, rest)) :
    ∃ enc n, xs = enc ++ rest ∧ A.Holds s n ∧ framedSize n ≤ enc.length := by
  obtain ⟨props, mid, hprops, hfold⟩ := run_bind_ok.mp h
  obtain ⟨enc, rfl, lengthEnc, body, rfl, ⟨hword, -⟩, hstar⟩ :=
    (readProperties_parses _ _ _).mp hprops
  obtain ⟨hr, hsize⟩ := readable_of_star hstar
  obtain ⟨hs, rfl⟩ := run_liftM_ok.mp hfold
  refine ⟨lengthEnc ++ body, body.length, rfl, (holds_of_block hr hs).mono hsize, ?_⟩
  rw [List.length_append]
  exact Nat.add_le_add_right (varlenSize_le_of_word hword) _

theorem Holds.wellFormed {s : σ} {n : ℕ} (h : A.Holds s n) : S.WellFormed s where
  own := by
    intro a ha _
    obtain ⟨c, hc, he⟩ := A.carries s a ha
    rw [← he]
    exact h.own c hc
  users := h.users
  unknown := fun p hp => (h.unknown p hp).wellTyped
  foreign := h.foreign

theorem Holds.counted {s : σ} {n : ℕ} (h : A.Holds s n) :
    Counted (S.base s).unknownProperties := fun p hp => (h.unknown p hp).counted

end Account

theorem blockSize_merged_le (props : List Property) : blockSize (merged props) ≤ blockSize props := by
  rw [merged, foldl_addProperty_eq]
  exact KeyedList.sum_putAll_le propertySize props

/-- Merging can only make a section smaller. -/
theorem sectionSize_le {S : PropertySection σ} {A : Account S} {s : σ} {n k : ℕ} (h : A.Holds s n)
    (hadds : additionsSize (S.adds s) ≤ additionsSize (A.cost s) + k) :
    sectionSize S s ≤ framedSize (n + k) := by
  apply framedSize_mono
  have hmerged := blockSize_merged_le (S.base s).unknownProperties
  have hsize := h.size
  rw [PropertySection.block, blockSize_append, blockSize_append, blockSize_presentProperties]
  omega

/-! ## The sections of the packets -/

/-- Authentication data counts when it is there, whether it is written or not. -/
def connectConnackCost (p : ConnectConnackProperties) : List MaybeAdd :=
  [⟨p.authenticationMethod != [], Ids.authenticationMethod, .string p.authenticationMethod⟩,
    ⟨p.authenticationData != [], Ids.authenticationData, .binary p.authenticationData⟩,
    ⟨p.sessionExpiryInterval != 0, Ids.sessionExpiryInterval, .integral p.sessionExpiryInterval⟩,
    ⟨p.maximumPacketSize != 0xFFFFFFFF, Ids.maximumPacketSize, .integral p.maximumPacketSize⟩,
    ⟨p.topicAliasMaximum != 0, Ids.topicAliasMaximum, .integral p.topicAliasMaximum.toUInt32⟩,
    ⟨p.receiveMaximum != 0xFFFF, Ids.receiveMaximum, .integral p.receiveMaximum.toUInt32⟩]

theorem connectConnack_stores {p p' : ConnectConnackProperties} {prop : Property} {id : UInt8}
    (h : p.handle prop = .ok p') (hw : prop.WellTyped) (hid : id ∈ ConnectConnackProperties.ids)
    (he : prop.identifier = id.toUInt32) :
    p'.toPropertiesBase = p.toPropertiesBase ∧
      Stores (connectConnackCost p) (connectConnackCost p') prop := by
  obtain ⟨identifier, value⟩ := prop
  change identifier = _ at he
  subst he
  simp only [ConnectConnackProperties.ids, List.mem_cons, List.not_mem_nil, or_false] at hid
  rcases hid with rfl | rfl | rfl | rfl | rfl | rfl
  · exact stores_string (f := fun x => { p with authenticationMethod := x }) h hw rfl 0
      fun _ => ⟨rfl, _, rfl⟩
  · exact stores_binary (f := fun x => { p with authenticationData := x }) h hw rfl 1
      fun _ => ⟨rfl, _, rfl⟩
  · exact stores_integral (f := fun x => { p with sessionExpiryInterval := x }) h hw
      (by decide) 2 fun _ => ⟨rfl, _, _, rfl⟩
  · exact stores_integral (f := fun x => { p with maximumPacketSize := x }) h hw
      (by decide) 3 fun _ => ⟨rfl, _, _, rfl⟩
  · exact stores_integral (f := fun x => { p with topicAliasMaximum := x.toUInt16 }) h hw
      (by decide) 4 fun _ => ⟨rfl, _, _, rfl⟩
  · exact stores_integral (f := fun x => { p with receiveMaximum := x.toUInt16 }) h hw
      (by decide) 5 fun _ => ⟨rfl, _, _, rfl⟩

/-- A method without data: the encoder adds empty data to it. -/
def MethodAlone (p : ConnectConnackProperties) : Prop :=
  p.authenticationMethod ≠ [] ∧ p.authenticationData = []

instance (p : ConnectConnackProperties) : Decidable (MethodAlone p) :=
  inferInstanceAs (Decidable (_ ∧ _))

theorem additionSize_empty_data (present : Bool) :
    additionSize ⟨present, Ids.authenticationData, .binary []⟩ ≤ 3 := by
  have hvarlen : varlenSize 22 = 1 := by
    rw [varlenSize, Base128.digits_of_lt (by omega)]
    rfl
  exact (additionSize_le _).trans (Nat.add_le_add_right hvarlen.le 2)

/-- Only a method without data needs more bytes to be written than it had when it was
read. -/
theorem connectConnack_adds_le (p : ConnectConnackProperties) :
    additionsSize p.adds ≤
      additionsSize (connectConnackCost p) + if MethodAlone p then 3 else 0 := by
  simp only [ConnectConnackProperties.adds, connectConnackCost, additionsSize_cons]
  by_cases hdata : p.authenticationData = []
  · rw [hdata]
    have hempty := additionSize_empty_data (p.authenticationMethod != [])
    by_cases hmethod : p.authenticationMethod = []
    · simp [hmethod, additionSize]
    · rw [if_pos ⟨hmethod, hdata⟩]
      omega
  · have hle : additionSize ⟨p.authenticationMethod != [], Ids.authenticationData,
        .binary p.authenticationData⟩ ≤ additionSize ⟨p.authenticationData != [],
          Ids.authenticationData, .binary p.authenticationData⟩ := by
      have hpresent : (p.authenticationData != []) = true := by simpa using hdata
      rw [hpresent]
      exact additionSize_le _
    omega

/-- A section that is written from the same additions as it is accounted by. -/
theorem carries_self {adds : σ → List MaybeAdd} (s : σ) :
    ∀ a ∈ adds s, ∃ c ∈ adds s, c.value = a.value :=
  fun a ha => ⟨a, ha, rfl⟩

theorem connectConnack_carries (p : ConnectConnackProperties) :
    ∀ a ∈ p.adds, ∃ c ∈ connectConnackCost p, c.value = a.value := by
  simp [ConnectConnackProperties.adds, connectConnackCost]

def connectCost (p : ConnectProperties) : List MaybeAdd :=
  ⟨p.requestResponseInformation != false, Ids.requestResponseInformation,
    boolArgument p.requestResponseInformation⟩ ::
  ⟨p.requestProblemInformation != false, Ids.requestProblemInformation,
    boolArgument p.requestProblemInformation⟩ ::
  connectConnackCost p.toConnectConnackProperties

/-- What a section does with a property of the part that it extends. -/
theorem stores_part {ρ : Type} {g : ρ → σ} {b : σ → PropertiesBase} {q : ρ → PropertiesBase}
    {c : σ → List MaybeAdd} {d : ρ → List MaybeAdd} {s' : σ} {r : ρ} {x : Except Fault ρ}
    {prop : Property} {l : List MaybeAdd} (h : g <$> x = .ok s')
    (hbase : ∀ r, b (g r) = q r) (hc : ∀ r, c (g r) = l ++ d r)
    (hpart : ∀ {r'}, x = .ok r' → q r' = q r ∧ Stores (d r) (d r') prop) :
    b s' = b (g r) ∧ Stores (c (g r)) (c s') prop := by
  rw [map_eq_pure_bind] at h
  obtain ⟨r', hx, hs⟩ := bind_ok.mp h
  cases hs
  obtain ⟨hb, hstores⟩ := hpart hx
  rw [hbase, hbase, hc, hc]
  exact ⟨hb, hstores.append l⟩

theorem connect_stores {p p' : ConnectProperties} {prop : Property} {id : UInt8}
    (h : p.handle prop = .ok p') (hw : prop.WellTyped) (hid : id ∈ ConnectProperties.asSection.ids)
    (he : prop.identifier = id.toUInt32) :
    p'.toPropertiesBase = p.toPropertiesBase ∧ Stores (connectCost p) (connectCost p') prop := by
  obtain ⟨identifier, value⟩ := prop
  change identifier = _ at he
  subst he
  rcases List.mem_cons.mp hid with rfl | hid
  · exact stores_integral (b := fun p => p.toPropertiesBase) (c := connectCost) (s := p)
      (f := fun x => { p with requestResponseInformation := asBool x }) h hw (by decide) 0
      fun _ => ⟨rfl, _, _, rfl⟩
  rcases List.mem_cons.mp hid with rfl | hid
  · exact stores_integral (b := fun p => p.toPropertiesBase) (c := connectCost) (s := p)
      (f := fun x => { p with requestProblemInformation := asBool x }) h hw (by decide) 1
      fun _ => ⟨rfl, _, _, rfl⟩
  rw [p.leaves hid rfl] at h
  exact stores_part (b := fun p => p.toPropertiesBase) (c := connectCost)
    (q := ConnectConnackProperties.toPropertiesBase) (d := connectConnackCost)
    (r := p.toConnectConnackProperties) (l := (connectCost p).take 2) h (fun _ => rfl) (fun _ => rfl)
    fun hr => connectConnack_stores hr hw hid rfl

def connectAccount : Account ConnectProperties.asSection where
  cost := connectCost
  stores := connect_stores
  carries p := by
    intro a ha
    rcases List.mem_cons.mp ha with rfl | ha
    · exact ⟨_, List.mem_cons_self, rfl⟩
    rcases List.mem_cons.mp ha with rfl | ha
    · exact ⟨_, List.mem_cons_of_mem _ List.mem_cons_self, rfl⟩
    obtain ⟨c, hc, he⟩ := connectConnack_carries _ a ha
    exact ⟨c, List.mem_cons_of_mem _ (List.mem_cons_of_mem _ hc), he⟩
  base_dflt := rfl
  sized_dflt := by decide
  nothing := by decide
  cost_withBase _ _ := rfl

def connackCost (p : ConnackProperties) : List MaybeAdd :=
  ⟨p.retainAvailable != true, Ids.retainAvailable, boolArgument p.retainAvailable⟩ ::
  ⟨p.maximumQos != qos2, Ids.maximumQos, .integral p.maximumQos.toUInt32⟩ ::
  ⟨p.assignedClientId != [], Ids.assignedClientId, .string p.assignedClientId⟩ ::
  ⟨p.reasonString != [], Ids.reasonString, .string p.reasonString⟩ ::
  ⟨p.wildcardSubscriptionsAvailable != true, Ids.wildcardSubscriptionsAvailable,
    boolArgument p.wildcardSubscriptionsAvailable⟩ ::
  ⟨p.subscriptionIdentifiersAvailable != true, Ids.subscriptionIdentifiersAvailable,
    boolArgument p.subscriptionIdentifiersAvailable⟩ ::
  ⟨p.sharedSubscriptionAvailable != true, Ids.sharedSubscriptionAvailable,
    boolArgument p.sharedSubscriptionAvailable⟩ ::
  ⟨p.serverKeepAlive != 0, Ids.serverKeepAlive, .integral p.serverKeepAlive.toUInt32⟩ ::
  ⟨p.responseInformation != [], Ids.responseInformation, .string p.responseInformation⟩ ::
  ⟨p.serverReference != [], Ids.serverReference, .string p.serverReference⟩ ::
  connectConnackCost p.toConnectConnackProperties

theorem connack_stores {p p' : ConnackProperties} {prop : Property} {id : UInt8}
    (h : p.handle prop = .ok p') (hw : prop.WellTyped) (hid : id ∈ ConnackProperties.asSection.ids)
    (he : prop.identifier = id.toUInt32) :
    p'.toPropertiesBase = p.toPropertiesBase ∧ Stores (connackCost p) (connackCost p') prop := by
  obtain ⟨identifier, value⟩ := prop
  change identifier = _ at he
  subst he
  change id ∈ [Ids.retainAvailable, Ids.maximumQos, Ids.assignedClientId, Ids.reasonString,
    Ids.wildcardSubscriptionsAvailable, Ids.subscriptionIdentifiersAvailable,
    Ids.sharedSubscriptionAvailable, Ids.serverKeepAlive, Ids.responseInformation,
    Ids.serverReference] ++ ConnectConnackProperties.ids at hid
  rcases List.mem_append.mp hid with hown | hid
  · simp only [List.mem_cons, List.not_mem_nil, or_false] at hown
    rcases hown with rfl | rfl | rfl | rfl | rfl | rfl | rfl | rfl | rfl | rfl
    · exact stores_integral (b := fun p => p.toPropertiesBase) (c := connackCost) (s := p)
        (f := fun x => { p with retainAvailable := asBool x }) h hw (by decide) 0
        fun _ => ⟨rfl, _, _, rfl⟩
    · exact stores_integral (b := fun p => p.toPropertiesBase) (c := connackCost) (s := p)
        (f := fun x => { p with maximumQos := x.toUInt8 }) h hw (by decide) 1
        fun _ => ⟨rfl, _, _, rfl⟩
    · exact stores_string (b := fun p => p.toPropertiesBase) (c := connackCost) (s := p)
        (f := fun x => { p with assignedClientId := x }) h hw rfl 2 fun _ => ⟨rfl, _, rfl⟩
    · exact stores_string (b := fun p => p.toPropertiesBase) (c := connackCost) (s := p)
        (f := fun x => { p with reasonString := x }) h hw rfl 3 fun _ => ⟨rfl, _, rfl⟩
    · exact stores_integral (b := fun p => p.toPropertiesBase) (c := connackCost) (s := p)
        (f := fun x => { p with wildcardSubscriptionsAvailable := asBool x }) h hw (by decide) 4
        fun _ => ⟨rfl, _, _, rfl⟩
    · exact stores_integral (b := fun p => p.toPropertiesBase) (c := connackCost) (s := p)
        (f := fun x => { p with subscriptionIdentifiersAvailable := asBool x }) h hw (by decide) 5
        fun _ => ⟨rfl, _, _, rfl⟩
    · exact stores_integral (b := fun p => p.toPropertiesBase) (c := connackCost) (s := p)
        (f := fun x => { p with sharedSubscriptionAvailable := asBool x }) h hw (by decide) 6
        fun _ => ⟨rfl, _, _, rfl⟩
    · exact stores_integral (b := fun p => p.toPropertiesBase) (c := connackCost) (s := p)
        (f := fun x => { p with serverKeepAlive := x.toUInt16 }) h hw (by decide) 7
        fun _ => ⟨rfl, _, _, rfl⟩
    · exact stores_string (b := fun p => p.toPropertiesBase) (c := connackCost) (s := p)
        (f := fun x => { p with responseInformation := x }) h hw rfl 8 fun _ => ⟨rfl, _, rfl⟩
    · exact stores_string (b := fun p => p.toPropertiesBase) (c := connackCost) (s := p)
        (f := fun x => { p with serverReference := x }) h hw rfl 9 fun _ => ⟨rfl, _, rfl⟩
  · rw [p.leaves hid rfl] at h
    exact stores_part (b := fun p => p.toPropertiesBase) (c := connackCost)
      (q := ConnectConnackProperties.toPropertiesBase) (d := connectConnackCost)
      (r := p.toConnectConnackProperties) (l := (connackCost p).take 10) h (fun _ => rfl)
      (fun _ => rfl) fun hr => connectConnack_stores hr hw hid rfl

def connackAccount : Account ConnackProperties.asSection where
  cost := connackCost
  stores := connack_stores
  carries p := by
    have hinner := connectConnack_carries p.toConnectConnackProperties
    change ∀ a ∈ p.adds, ∃ c ∈ connackCost p, c.value = a.value
    simp only [ConnackProperties.adds, connackCost, List.forall_mem_cons, List.exists_mem_cons_iff]
    simp only [true_or, or_true, true_and]
    exact fun a ha => by simp [hinner a ha]
  base_dflt := rfl
  sized_dflt := by decide
  nothing := by decide
  cost_withBase _ _ := rfl

theorem will_stores {p p' : WillProperties} {prop : Property} {id : UInt8}
    (h : p.handle prop = .ok p') (hw : prop.WellTyped) (hid : id ∈ WillProperties.asSection.ids)
    (he : prop.identifier = id.toUInt32) :
    p'.toPropertiesBase = p.toPropertiesBase ∧ Stores p.adds p'.adds prop := by
  obtain ⟨identifier, value⟩ := prop
  change identifier = _ at he
  subst he
  simp only [WillProperties.asSection, List.mem_cons, List.not_mem_nil, or_false] at hid
  rcases hid with rfl | rfl | rfl | rfl | rfl | rfl
  · exact stores_string (c := WillProperties.adds) (f := fun x => { p with contentType := x })
      h hw rfl 0 fun _ => ⟨rfl, _, rfl⟩
  · exact stores_binary (c := WillProperties.adds) (f := fun x => { p with correlationData := x })
      h hw rfl 1 fun _ => ⟨rfl, _, rfl⟩
  · exact stores_string (c := WillProperties.adds) (f := fun x => { p with responseTopic := x })
      h hw rfl 2 fun _ => ⟨rfl, _, rfl⟩
  · exact stores_integral (c := WillProperties.adds)
      (f := fun x => { p with payloadFormatIndicator := x.toUInt8 }) h hw (by decide) 3
      fun _ => ⟨rfl, _, _, rfl⟩
  · exact stores_integral (c := WillProperties.adds) (f := fun x => { p with delayInterval := x })
      h hw (by decide) 4 fun _ => ⟨rfl, _, _, rfl⟩
  · exact stores_integral (c := WillProperties.adds)
      (f := fun x => { p with messageExpiryInterval := x }) h hw (by decide) 5
      fun _ => ⟨rfl, _, _, rfl⟩

def willAccount : Account WillProperties.asSection where
  cost := WillProperties.adds
  stores := will_stores
  carries := carries_self
  base_dflt := rfl
  sized_dflt := by decide
  nothing := by decide
  cost_withBase _ _ := rfl

theorem disconnect_stores {p p' : DisconnectProperties} {prop : Property} {id : UInt8}
    (h : p.handle prop = .ok p') (hw : prop.WellTyped)
    (hid : id ∈ DisconnectProperties.asSection.ids) (he : prop.identifier = id.toUInt32) :
    p'.toPropertiesBase = p.toPropertiesBase ∧ Stores p.adds p'.adds prop := by
  obtain ⟨identifier, value⟩ := prop
  change identifier = _ at he
  subst he
  simp only [DisconnectProperties.asSection, List.mem_cons, List.not_mem_nil, or_false] at hid
  rcases hid with rfl | rfl | rfl
  · exact stores_integral (c := DisconnectProperties.adds)
      (f := fun x => { p with sessionExpiryInterval := x }) h hw (by decide) 0
      fun _ => ⟨rfl, _, _, rfl⟩
  · exact stores_string (c := DisconnectProperties.adds)
      (f := fun x => { p with reasonString := x }) h hw rfl 1 fun _ => ⟨rfl, _, rfl⟩
  · exact stores_string (c := DisconnectProperties.adds)
      (f := fun x => { p with serverReference := x }) h hw rfl 2 fun _ => ⟨rfl, _, rfl⟩

def disconnectAccount : Account DisconnectProperties.asSection where
  cost := DisconnectProperties.adds
  stores := disconnect_stores
  carries := carries_self
  base_dflt := rfl
  sized_dflt := by decide
  nothing := by decide
  cost_withBase _ _ := rfl

theorem reason_stores {p p' : ReasonProperties} {prop : Property} {id : UInt8}
    (h : p.handle prop = .ok p') (hw : prop.WellTyped) (hid : id ∈ ReasonProperties.asSection.ids)
    (he : prop.identifier = id.toUInt32) :
    p'.toPropertiesBase = p.toPropertiesBase ∧ Stores p.adds p'.adds prop := by
  obtain ⟨identifier, value⟩ := prop
  change identifier = _ at he
  subst he
  rw [List.mem_singleton.mp hid] at h hw ⊢
  exact stores_string (c := ReasonProperties.adds) (f := fun x => { p with reasonString := x })
    h hw rfl 0 fun _ => ⟨rfl, _, rfl⟩

def reasonAccount : Account ReasonProperties.asSection where
  cost := ReasonProperties.adds
  stores := reason_stores
  carries := carries_self
  base_dflt := rfl
  sized_dflt := by decide
  nothing := by decide
  cost_withBase _ _ := rfl

/-- UNSUBSCRIBE interprets no property of its own. -/
def unsubscribeAccount : Account UnsubscribeProperties.asSection where
  cost _ := []
  stores _ _ hid := absurd hid List.not_mem_nil
  carries _ _ ha := absurd ha List.not_mem_nil
  base_dflt := rfl
  sized_dflt := nofun
  nothing := rfl
  cost_withBase _ _ := rfl

end Mqtt5.WireReceived
