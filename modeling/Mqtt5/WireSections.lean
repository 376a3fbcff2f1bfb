import Mqtt5.WirePropertiesCodec

/-!
# Property sections

Every `properties_t` is written and read in the same way: conditional additions of its
own fields, then the additions of `properties_t_base`; on the way back a default value
is updated by one property after another. `PropertySection` collects what makes that a
round trip, and `PropertySection.decodes` is the round trip.
-/
namespace Mqtt5.WireProperties
open ByteParser ByteWriter WirePrimitives

/-- Handle what an addition makes, when it is made. -/
def handlePresent {σ : Type} (handle : σ → Property → Except Fault σ) (s : σ) (add : MaybeAdd) :
    Except Fault σ :=
  if add.present then handle s add.made else .ok s

theorem foldlM_presentProperties {σ : Type} (handle : σ → Property → Except Fault σ)
    (adds : List MaybeAdd) (s : σ) :
    (presentProperties adds).foldlM handle s = adds.foldlM (handlePresent handle) s := by
  induction adds generalizing s with
  | nil => rfl
  | cons a adds ih =>
    rw [List.foldlM_cons, handlePresent]
    cases hp : a.present with
    | false =>
      simp only [presentProperties, hp, List.filter_cons, Bool.false_eq_true, ↓reduceIte]
      exact ih s
    | true =>
      simp only [presentProperties, hp, List.filter_cons, ↓reduceIte, List.map_cons,
        List.foldlM_cons]
      exact bind_congr fun s' => ih s'

/-- One field: the addition is left out only when the field has its default already. -/
theorem foldlM_field {σ : Type} {handle : σ → Property → Except Fault σ} {s t : σ}
    {add : MaybeAdd} {adds : List MaybeAdd} {r : Except Fault σ}
    (made : add.present = true → handle s add.made = .ok t)
    (absent : add.present = false → s = t)
    (rest : adds.foldlM (handlePresent handle) t = r) :
    (add :: adds).foldlM (handlePresent handle) s = r := by
  rw [List.foldlM_cons, handlePresent]
  cases hp : add.present with
  | false => rw [if_neg (by simp), absent hp]; exact rest
  | true => rw [if_pos rfl, made hp]; exact rest

theorem foldlM_absent {σ : Type} {handle : σ → Property → Except Fault σ} {s : σ}
    {add : MaybeAdd} {adds : List MaybeAdd} {r : Except Fault σ} (absent : add.present = false)
    (rest : adds.foldlM (handlePresent handle) s = r) :
    (add :: adds).foldlM (handlePresent handle) s = r := by
  rw [List.foldlM_cons, handlePresent, absent]
  exact rest

/-- The user properties that a section adds by itself. -/
theorem foldlM_users {σ : Type} {handle : σ → Property → Except Fault σ}
    (append : σ → List KeyValuePair → σ)
    (pair : ∀ s kv, handle s ⟨38, .pair kv⟩ = .ok (append s [kv]))
    (nil : ∀ s, append s [] = s)
    (assoc : ∀ s us vs, append (append s us) vs = append s (us ++ vs))
    {users : List KeyValuePair} {s : σ} {adds : List MaybeAdd} {r : Except Fault σ}
    (rest : adds.foldlM (handlePresent handle) (append s users) = r) :
    (addUserProperties users ++ adds).foldlM (handlePresent handle) s = r := by
  induction users generalizing s with
  | nil => rw [nil] at rest; exact rest
  | cons kv users ih =>
    have hstep : handlePresent handle s ⟨true, Ids.userProperty, .pair kv⟩ = .ok (append s [kv]) :=
      pair s kv
    rw [addUserProperties, List.map_cons, List.cons_append, List.foldlM_cons, hstep]
    exact ih (by rwa [assoc])

/-- Additions that a section leaves to the part of it that it extends. -/
theorem foldlM_part {σ ρ : Type} {handle : σ → Property → Except Fault σ}
    {part : ρ → Property → Except Fault ρ} (get : σ → ρ) (set : σ → ρ → σ)
    (get_set : ∀ s r, get (set s r) = r) (set_set : ∀ s r r', set (set s r) r' = set s r')
    (set_get : ∀ s, set s (get s) = s) {adds : List MaybeAdd}
    (leaves : ∀ a ∈ adds, ∀ s, handle s a.made = set s <$> part (get s) a.made) (s : σ) :
    adds.foldlM (handlePresent handle) s =
      set s <$> adds.foldlM (handlePresent part) (get s) := by
  induction adds generalizing s with
  | nil => exact congrArg Except.ok (set_get s).symm
  | cons a adds ih =>
    have hrest := ih fun b hb => leaves b (by simp [hb])
    simp only [List.foldlM_cons, handlePresent]
    cases a.present with
    | false => exact hrest s
    | true =>
      rw [if_pos rfl, if_pos rfl, leaves a (by simp) s]
      cases hr : part (get s) a.made with
      | error e => rfl
      | ok r =>
        change adds.foldlM (handlePresent handle) (set s r) = _
        rw [hrest, get_set, funext (set_set s r)]
        rfl

def userProperties (pairs : List KeyValuePair) : List Property :=
  pairs.map fun kv => ⟨38, .pair kv⟩

/-- What a run of `add_property` calls keeps of a list of properties. -/
def merged (props : List Property) : List Property := props.foldl addProperty []

def Argument.Sized : Argument → Prop
  | .string v => WirePrimitives.Sized v
  | .binary v => WirePrimitives.Sized v
  | .pair v => v.Sized
  | .integral _ => True

instance : (v : Argument) → Decidable v.Sized
  | .string v => inferInstanceAs (Decidable (WirePrimitives.Sized v))
  | .binary v => inferInstanceAs (Decidable (WirePrimitives.Sized v))
  | .pair v => inferInstanceAs (Decidable v.Sized)
  | .integral _ => .isTrue trivial

structure PropertySection (σ : Type) where
  dflt : σ
  handle : σ → Property → Except Fault σ
  adds : σ → List MaybeAdd
  base : σ → PropertiesBase
  withBase : σ → PropertiesBase → σ
  /-- What handling the additions makes of the default. -/
  received : σ → σ
  /-- The identifiers that `handle` does not leave to `properties_t_base`. -/
  ids : List UInt8
  ids_nodup : (38 :: ids).Nodup
  base_withBase : ∀ s b, base (withBase s b) = b
  withBase_withBase : ∀ s b b', withBase (withBase s b) b' = withBase s b'
  withBase_base : ∀ s, withBase s (base s) = s
  adds_ids : ∀ s, ((adds s).map (·.id)).filter (· ≠ 38) = ids
  handled : ∀ s, (∀ a ∈ adds s, a.present → a.Fits) →
    (adds s).foldlM (handlePresent handle) dflt = .ok (received s)
  passes : ∀ s prop, (∀ id ∈ ids, prop.identifier ≠ id.toUInt32) →
    handle s prop = withBase s <$> (base s).handleProperty prop

/-! ## Merging -/

theorem mem_merged {props : List Property} {q : Property} (h : q ∈ merged props) : q ∈ props := by
  rw [merged, foldl_addProperty_eq] at h
  exact KeyedList.mem_putAll h

theorem merged_distinct {props : List Property}
    (h : props.Pairwise fun p q => p.identifier ≠ q.identifier) : merged props = props :=
  foldl_addProperty_mergeless (h.imp fun hne => .inr hne)

theorem presentProperties_mergeless {adds : List MaybeAdd}
    (h : adds.Pairwise fun a b => a.id = 38 ∨ a.id ≠ b.id) : Mergeless (presentProperties adds) := by
  apply (List.Pairwise.sublist List.filter_sublist h).map MaybeAdd.made
  intro a b hab
  rw [made_identifier, made_identifier]
  refine hab.imp (fun h => by rw [h]; rfl) (fun h he => h ?_)
  have := congrArg UInt32.toNat he
  rw [UInt8.toNat_toUInt32, UInt8.toNat_toUInt32] at this
  exact UInt8.toNat_inj.mp this

theorem foldl_addProperty_user {ps : List Property} (users : List KeyValuePair) :
    (userProperties users).foldl addProperty ps = ps ++ userProperties users := by
  have huser : ∀ r ∈ userProperties users, r.identifier = 38 ∨
      ∀ p ∈ ps, p.identifier ≠ r.identifier := by
    intro r hr
    obtain ⟨kv, -, rfl⟩ := List.mem_map.mp hr
    exact .inl rfl
  rw [foldl_addProperty_of_ne huser, foldl_addProperty_mergeless]
  exact List.pairwise_map.mpr (List.pairwise_of_forall fun _ _ => .inl rfl)

theorem presentProperties_user (users : List KeyValuePair) :
    presentProperties (addUserProperties users) = userProperties users := by
  induction users with
  | nil => rfl
  | cons kv users ih =>
    simp only [presentProperties, addUserProperties, userProperties, List.map_cons,
      List.filter_cons, ↓reduceIte] at ih ⊢
    rw [ih]
    rfl

theorem addUserProperties_fits (users : List KeyValuePair) :
    ∀ a ∈ addUserProperties users, a.present → a.Fits := by
  intro a ha _
  obtain ⟨kv, -, rfl⟩ := List.mem_map.mp ha
  rfl

/-! ## Well-typed blocks -/

theorem assignValue_kind {k : Kind} {val : Argument} {v : Value} (h : assignValue k val = .ok v) :
    v.kind = k := by
  cases k <;> cases val <;> cases h <;> rfl

theorem assignValue_sized {k : Kind} {val : Argument} {v : Value} (h : assignValue k val = .ok v)
    (hs : val.Sized) : v.Sized := by
  cases k <;> cases val <;> cases h <;> trivial

theorem made_wellTyped {add : MaybeAdd} (hf : add.Fits) (hs : add.value.Sized) :
    add.made.WellTyped := by
  have h := hf
  unfold MaybeAdd.Fits Property.ofValue at h
  obtain ⟨v, hv, hmade⟩ := bind_ok.mp h
  rw [← Except.ok.inj hmade]
  exact ⟨assignValue_kind hv, assignValue_sized hv hs⟩

namespace PropertySection
variable {σ : Type} (S : PropertySection σ)

def serialize (s : σ) : Writer :=
  writeBuilt (do
    let props ← addPresent (S.adds s) []
    (S.base s).addBaseProperties props)

def deserialize : Reader σ := readHandled S.dflt S.handle

/-- What the length fields can count, and unknown properties the packet leaves alone. -/
structure WellFormed (s : σ) : Prop where
  own : ∀ a ∈ S.adds s, a.present → a.value.Sized
  users : ∀ kv ∈ (S.base s).userProperty, kv.Sized
  unknown : ∀ p ∈ (S.base s).unknownProperties, p.WellTyped
  foreign : ∀ p ∈ (S.base s).unknownProperties,
    p.identifier ≠ 38 ∧ ∀ id ∈ S.ids, p.identifier ≠ id.toUInt32

instance (s : σ) : Decidable (S.WellFormed s) :=
  -- over the identifiers of the section, not over all bytes
  have (prop : Property) : Decidable (∀ id ∈ S.ids, prop.identifier ≠ id.toUInt32) :=
    List.decidableBAll _ _
  decidable_of_iff ((∀ a ∈ S.adds s, a.present → a.value.Sized) ∧
      (∀ kv ∈ (S.base s).userProperty, kv.Sized) ∧
      (∀ p ∈ (S.base s).unknownProperties, p.WellTyped) ∧
      ∀ p ∈ (S.base s).unknownProperties,
        p.identifier ≠ 38 ∧ ∀ id ∈ S.ids, p.identifier ≠ id.toUInt32)
    ⟨fun h => ⟨h.1, h.2.1, h.2.2.1, h.2.2.2⟩, fun h => ⟨h.own, h.users, h.unknown, h.foreign⟩⟩

def block (s : σ) : List Property :=
  presentProperties (S.adds s) ++ userProperties (S.base s).userProperty ++
    merged (S.base s).unknownProperties

/-- The packet a reader makes of a written one. -/
def decoded (s : σ) : σ :=
  S.withBase (S.received s)
    ⟨(S.base (S.received s)).userProperty ++ (S.base s).userProperty,
      (S.base (S.received s)).unknownProperties ++ merged (S.base s).unknownProperties⟩

variable {S}

theorem ids_user {id : UInt8} (h : id ∈ S.ids) : id ≠ 38 := by
  rintro rfl
  exact (List.nodup_cons.mp S.ids_nodup).1 h

theorem adds_id {s : σ} {a : MaybeAdd} (ha : a ∈ S.adds s) : a.id ∈ S.ids ∨ a.id = 38 := by
  by_cases h : a.id = 38
  · exact .inr h
  · rw [← S.adds_ids s]
    exact .inl (List.mem_filter.mpr ⟨List.mem_map_of_mem ha, by simpa using h⟩)

theorem adds_distinct (s : σ) : (S.adds s).Pairwise fun a b => a.id = 38 ∨ a.id ≠ b.id := by
  have hnodup := (List.nodup_cons.mp S.ids_nodup).2
  rw [← S.adds_ids s] at hnodup
  have hpair := List.pairwise_map.mp (List.pairwise_filter.mp hnodup)
  refine hpair.imp fun {a b} hab => ?_
  by_cases ha : a.id = 38
  · exact .inl ha
  · refine .inr fun he => ?_
    exact hab (by simpa using ha) (by simpa [← he] using ha) he

theorem build_eq {s : σ} (hw : S.WellFormed s) (hf : ∀ a ∈ S.adds s, a.present → a.Fits) :
    (do let props ← addPresent (S.adds s) []; (S.base s).addBaseProperties props) =
      .ok (S.block s) := by
  have hown : (presentProperties (S.adds s)).foldl addProperty [] = presentProperties (S.adds s) :=
    foldl_addProperty_mergeless (presentProperties_mergeless (adds_distinct s))
  have hforeign : ∀ r ∈ (S.base s).unknownProperties, r.identifier = 38 ∨
      ∀ p ∈ presentProperties (S.adds s) ++ userProperties (S.base s).userProperty,
        p.identifier ≠ r.identifier := by
    intro r hr
    obtain ⟨h38, hids⟩ := hw.foreign r hr
    refine .inr fun p hp => ?_
    rcases List.mem_append.mp hp with hp | hp
    · obtain ⟨a, ha, rfl⟩ := List.mem_map.mp hp
      rw [made_identifier]
      rcases adds_id (List.mem_of_mem_filter ha) with h | h
      · exact (hids _ h).symm
      · rw [h]
        exact h38.symm
    · obtain ⟨kv, -, rfl⟩ := List.mem_map.mp hp
      exact h38.symm
  rw [addPresent_eq hf, hown]
  change ((addPresent (addUserProperties (S.base s).userProperty) _) >>= _) = _
  rw [addPresent_eq (addUserProperties_fits _), presentProperties_user, foldl_addProperty_user]
  change Except.ok (List.foldl addProperty _ _) = _
  rw [foldl_addProperty_of_ne hforeign]
  rfl

theorem block_wellTyped {s : σ} (hw : S.WellFormed s) (hf : ∀ a ∈ S.adds s, a.present → a.Fits) :
    ∀ p ∈ S.block s, p.WellTyped := by
  intro p hp
  rcases List.mem_append.mp hp with hp | hp
  · rcases List.mem_append.mp hp with hp | hp
    · obtain ⟨a, ha, rfl⟩ := List.mem_map.mp hp
      obtain ⟨ha, hpresent⟩ := List.mem_filter.mp ha
      exact made_wellTyped (hf a ha hpresent) (hw.own a ha hpresent)
    · obtain ⟨kv, hkv, rfl⟩ := List.mem_map.mp hp
      exact ⟨rfl, hw.users kv hkv⟩
  · exact hw.unknown p (mem_merged hp)

/-- An encoding without an exception means that every argument had the right type. -/
theorem fits_of_serialize {s : σ} {zs : Bytes} (h : S.serialize s = .emit zs) :
    ∀ a ∈ S.adds s, a.present → a.Fits := by
  intro a ha hp
  cases hv : Property.ofValue a.id a.value with
  | ok p => unfold MaybeAdd.Fits MaybeAdd.made; rw [hv]
  | error e =>
    obtain ⟨e', he⟩ := addPresent_error ha hp hv []
    unfold serialize at h
    rw [he] at h
    cases h

/-- Properties that a section does not interpret are collected in order. -/
theorem foldlM_foreign (s : σ) (users : List KeyValuePair) {props : List Property}
    (hp : ∀ p ∈ props, p.identifier ≠ 38 ∧ ∀ id ∈ S.ids, p.identifier ≠ id.toUInt32) :
    (userProperties users ++ props).foldlM S.handle s =
      .ok (S.withBase s ⟨(S.base s).userProperty ++ users,
        (S.base s).unknownProperties ++ props⟩) := by
  induction users generalizing s with
  | nil =>
    change props.foldlM S.handle s = _
    induction props generalizing s with
    | nil =>
      simp only [List.append_nil]
      rw [show (⟨(S.base s).userProperty, (S.base s).unknownProperties⟩ : PropertiesBase) =
        S.base s from rfl, S.withBase_base]
      rfl
    | cons p props ih =>
      obtain ⟨hne, hids⟩ := hp p (by simp)
      have hstep : (S.base s).handleProperty p = .ok { S.base s with
          unknownProperties := (S.base s).unknownProperties ++ [p] } := by
        have hne' : p.identifier ≠ Ids.userProperty.toUInt32 := hne
        rw [PropertiesBase.handleProperty, if_neg hne']
        rfl
      rw [List.foldlM_cons, S.passes s p hids, hstep]
      change List.foldlM S.handle (S.withBase s _) props = _
      rw [ih (fun q hq => hp q (by simp [hq])), S.base_withBase, S.withBase_withBase]
      simp
  | cons kv users ih =>
    have hids : ∀ id ∈ S.ids, (38 : UInt32) ≠ id.toUInt32 := by
      intro id hid he
      apply ids_user hid
      have := congrArg UInt32.toNat he
      rw [UInt8.toNat_toUInt32] at this
      exact UInt8.toNat_inj.mp this.symm
    rw [userProperties, List.map_cons, List.cons_append, List.foldlM_cons,
      S.passes s ⟨38, .pair kv⟩ hids]
    change List.foldlM S.handle (S.withBase s _) (userProperties users ++ props) = _
    rw [ih, S.base_withBase, S.withBase_withBase]
    simp

theorem foldlM_block {s : σ} {zs : Bytes} (hw : S.WellFormed s) (h : S.serialize s = .emit zs) :
    (S.block s).foldlM S.handle S.dflt = .ok (S.decoded s) := by
  rw [block, List.append_assoc, List.foldlM_append, foldlM_presentProperties,
    S.handled s (fits_of_serialize h)]
  exact foldlM_foreign (S.received s) _ fun p hp => hw.foreign p (mem_merged hp)

theorem block_word {s : σ} {zs : Bytes} (hw : S.WellFormed s) (h : S.serialize s = .emit zs)
    (hlen : zs.length < 2 ^ 32) : BlockWord zs (S.block s) := by
  have hf := fits_of_serialize h
  unfold serialize at h
  rw [build_eq hw hf] at h
  exact writeProperties_word (block_wellTyped hw hf) h hlen

/-- A section that is written without an exception is read back, whatever follows it. -/
theorem decodes {s : σ} {zs : Bytes} (hw : S.WellFormed s) (h : S.serialize s = .emit zs)
    (hlen : zs.length < 2 ^ 32) : Decodes S.deserialize zs (S.decoded s) := by
  intro rest
  rw [deserialize, readHandled, (readProperties_parses.decodes (block_word hw h hlen)).bind_run,
    foldlM_block hw h]
  rfl

/-- A section of at most one byte holds no property. -/
theorem decoded_of_short {s : σ} {zs : Bytes} (hw : S.WellFormed s) (h : S.serialize s = .emit zs)
    (hlen : zs.length ≤ 1) : S.decoded s = S.dflt := by
  obtain ⟨lengthEnc, body, rfl, ⟨hword, -⟩, hstar⟩ := block_word hw h (by omega)
  have hne := List.length_pos_iff.mpr hword.ne_nil
  have hbody : body = [] := List.length_eq_zero_iff.mp (by simp at hlen; omega)
  have hblock : S.block s = [] := by
    cases hb : S.block s with
    | nil => rfl
    | cons p ps =>
      rw [hb] at hstar
      cases hstar with
      | @cons e es _ _ head tail =>
        exact absurd (List.append_eq_nil_iff.mp hbody).1 (propertyWord_ne_nil e p head)
  have hfold := foldlM_block hw h
  rw [hblock] at hfold
  exact (Except.ok.inj hfold).symm

theorem serialize_ne_nil {s : σ} {zs : Bytes} (h : S.serialize s = .emit zs) : zs ≠ [] := by
  unfold serialize writeBuilt at h
  split at h
  · simp only [writeProperties] at h
    split at h
    · cases h
    · obtain ⟨xs, ys, hx, -, rfl⟩ := Written.append_eq_emit.mp h
      rw [writeVarlen_eq] at hx
      split_ifs at hx
      · cases hx
        simp [(Base128.digits_word _).ne_nil]
      · cases hx
  · cases h

end PropertySection
end Mqtt5.WireProperties
