import Mqtt5.WirePrimitives

/-!
# The languages of the primitive fields

Each reader accepts exactly the encodings listed here, whatever follows them, and each
writer emits one of them. `varlenInt` is the only reader that can leave the span, and it
does so exactly on an empty one.
-/
namespace Mqtt5.WirePrimitives
open ByteParser ByteWriter

/-- The faults a caller sees as a C++ exception. -/
inductive Fault.IsException : Fault → Prop
  | protocolError (what : String) : IsException (.protocolError what)
  | runtimeError (what : String) : IsException (.runtimeError what)

/-- Every failure of the reader is an exception. -/
def Throws {α : Type} (p : Reader α) : Prop :=
  ∀ ⦃xs e⦄, p.run xs = .error e → e.IsException

theorem Throws.pure {α : Type} (a : α) : Throws (Pure.pure a : Reader α) := by
  intro xs e h
  cases h

theorem Throws.bind {α β : Type} {p : Reader α} {f : α → Reader β} (hp : Throws p)
    (hf : ∀ a, Throws (f a)) : Throws (p >>= f) := by
  intro xs e h
  rcases run_bind_error.mp h with h | ⟨a, mid, -, h⟩
  · exact hp h
  · exact hf a h

theorem Throws.map {α β : Type} {p : Reader α} (hp : Throws p) (f : α → β) :
    Throws (f <$> p) := by
  intro xs e h
  exact hp (run_map_error.mp h)

theorem Throws.untilEmpty {α : Type} {p : Reader α} {stuck : Fault} (hp : Throws p)
    (hprog : Progress p) : Throws (untilEmpty stuck p) := by
  intro xs e h
  by_contra he
  exact untilEmpty_error hprog (fun x xs hx => he (hp hx)) xs h

/-! ## Fixed-width integers -/

@[simp] theorem run_cspan (xs : Bytes) : cspan.run xs = .ok (xs, xs) := rfl

@[simp] theorem run_consume (sz : ℕ) (xs : Bytes) :
    (consume sz).run xs = .ok ((), xs.drop sz) := rfl

theorem run_cspanN (size : ℕ) (xs : Bytes) :
    (cspanN size).run xs =
      if xs.length < size then .error (.runtimeError "Not enough data")
      else .ok (xs.take size, xs) := by
  rw [cspanN, run_bind_of_ok (run_cspan xs)]
  split <;> rfl

/-- Take `size` bytes off the span, or throw. -/
theorem run_take {α : Type} (size : ℕ) (f : Bytes → α) (xs : Bytes) :
    (do let data ← cspanN size; consume size; return f data : Reader α).run xs =
      if xs.length < size then .error (.runtimeError "Not enough data")
      else .ok (f (xs.take size), xs.drop size) := by
  by_cases h : xs.length < size
  · rw [if_pos h, run_bind_of_error (by rw [run_cspanN, if_pos h])]
  · rw [if_neg h, run_bind_of_ok (by rw [run_cspanN, if_neg h])]
    rfl

theorem take_parses {α : Type} (size : ℕ) (f : Bytes → α) :
    Parses (do let data ← cspanN size; consume size; return f data : Reader α)
      (fun enc v => enc.length = size ∧ v = f enc) := by
  intro xs v rest
  rw [run_take]
  by_cases h : xs.length < size
  · simp only [h, ↓reduceIte, reduceCtorEq, false_iff]
    rintro ⟨enc, rfl, he, -⟩
    simp at h
    omega
  · simp only [h, ↓reduceIte, Except.ok.injEq, Prod.mk.injEq]
    constructor
    · rintro ⟨rfl, rfl⟩
      exact ⟨xs.take size, by simp, by simp; omega, rfl⟩
    · rintro ⟨enc, rfl, rfl, rfl⟩
      simp

theorem take_throws {α : Type} (size : ℕ) (f : Bytes → α) :
    Throws (do let data ← cspanN size; consume size; return f data : Reader α) := by
  intro xs e h
  rw [run_take] at h
  split at h
  · cases h
    exact .runtimeError _
  · cases h

theorem fixedInt_throws (size : ℕ) : Throws (fixedInt size) := take_throws size _

theorem fixedInt_parses (size : ℕ) :
    Parses (fixedInt size) (fun enc v => enc.length = size ∧ v = fixedIntValue enc) :=
  take_parses size _

theorem fixedIntBytes_one (v : UInt8) : fixedIntBytes 1 v.toNat = [v] := by
  simp [fixedIntBytes]

theorem fixedInt8_parses : Parses fixedInt8 (fun enc v => enc = [v]) := by
  refine ((fixedInt_parses 1).map _).congr fun enc v => ?_
  constructor
  · rintro ⟨n, ⟨hlen, rfl⟩, rfl⟩
    obtain ⟨b, rfl⟩ := List.length_eq_one_iff.mp hlen
    simp [fixedIntValue]
  · rintro rfl
    exact ⟨v.toNat, ⟨rfl, by simp [fixedIntValue]⟩, by simp⟩

theorem fixedInt16_parses :
    Parses fixedInt16 (fun enc v => enc = fixedIntBytes 2 v.toNat) := by
  refine ((fixedInt_parses 2).map _).congr fun enc v => ?_
  constructor
  · rintro ⟨n, ⟨hlen, rfl⟩, rfl⟩
    have hlt := fixedIntValue_lt enc
    rw [hlen] at hlt
    rw [UInt16.toNat_ofNat', Nat.mod_eq_of_lt (by simpa using hlt), ← hlen, bytes_fixedIntValue]
  · rintro rfl
    have hlt := v.toNat_lt
    refine ⟨v.toNat, ⟨by simp, ?_⟩, by simp⟩
    rw [fixedIntValue_bytes, Nat.mod_eq_of_lt (by simpa using hlt)]

theorem fixedInt32_parses :
    Parses fixedInt32 (fun enc v => enc = fixedIntBytes 4 v.toNat) := by
  refine ((fixedInt_parses 4).map _).congr fun enc v => ?_
  constructor
  · rintro ⟨n, ⟨hlen, rfl⟩, rfl⟩
    have hlt := fixedIntValue_lt enc
    rw [hlen] at hlt
    rw [UInt32.toNat_ofNat', Nat.mod_eq_of_lt (by simpa using hlt), ← hlen, bytes_fixedIntValue]
  · rintro rfl
    have hlt := v.toNat_lt
    refine ⟨v.toNat, ⟨by simp, ?_⟩, by simp⟩
    rw [fixedIntValue_bytes, Nat.mod_eq_of_lt (by simpa using hlt)]

theorem fixedInt8_throws : Throws fixedInt8 := (fixedInt_throws 1).map _
theorem fixedInt16_throws : Throws fixedInt16 := (fixedInt_throws 2).map _
theorem fixedInt32_throws : Throws fixedInt32 := (fixedInt_throws 4).map _

@[simp] theorem writeInt8_eq (v : UInt8) : writeInt8 v = .emit [v] := by
  rw [writeInt8, fixedIntBytes_one]

/-! ## Variable byte integers -/

theorem payload_toNat (b : UInt8) : (b &&& 127).toUInt32.toNat = b.toNat % 128 := by
  rw [UInt8.toNat_toUInt32, UInt8.toNat_and]
  exact Nat.and_two_pow_sub_one_eq_mod b.toNat 7

theorem continuation_iff (b : UInt8) : b &&& 128 ≠ 0 ↔ 128 ≤ b.toNat := by
  have hall : ∀ n < 256, (n &&& 128 = 0 ↔ n < 128) := by decide +kernel
  have h := hall b.toNat b.toNat_lt
  rw [Ne, ← UInt8.toNat_inj, UInt8.toNat_and]
  change ¬(b.toNat &&& 128 = 0) ↔ _
  rw [h]
  omega

/-- While fewer than four bytes are read, no sum or product wraps. -/
theorem accumulate_toNat {value multiplier : UInt32} {b : UInt8} {k : ℕ} (hk : k < 4)
    (hm : multiplier.toNat = 128 ^ k) (hv : value.toNat < 128 ^ k) :
    (value + (b &&& 127).toUInt32 * multiplier).toNat =
      value.toNat + 128 ^ k * (b.toNat % 128) := by
  have hpow : 128 ^ k ≤ 128 ^ 3 := Nat.pow_le_pow_right (by decide) (by omega)
  have hp : 128 ^ k * (b.toNat % 128) ≤ 128 ^ 3 * 127 := Nat.mul_le_mul hpow (by omega)
  rw [UInt32.toNat_add, UInt32.toNat_mul, payload_toNat, hm, Nat.mul_comm (_ % 128)]
  norm_num at hp hpow ⊢
  omega

theorem multiplier_toNat {multiplier : UInt32} {k : ℕ} (hk : k < 4)
    (hm : multiplier.toNat = 128 ^ k) : (multiplier * 128).toNat = 128 ^ (k + 1) := by
  have hpow : 128 ^ k ≤ 128 ^ 3 := Nat.pow_le_pow_right (by decide) (by omega)
  rw [UInt32.toNat_mul, hm, pow_succ, show (128 : UInt32).toNat = 128 from rfl]
  exact Nat.mod_eq_of_lt (by norm_num at hpow ⊢; omega)

theorem multiplier_le_iff {multiplier : UInt32} {k : ℕ} (hk : k ≤ 4)
    (hm : multiplier.toNat = 128 ^ k) : multiplier > 128 * 128 * 128 ↔ k = 4 := by
  rw [gt_iff_lt, UInt32.lt_iff_toNat_lt, hm]
  change 128 ^ 3 < 128 ^ k ↔ _
  rw [Nat.pow_lt_pow_iff_right (by decide)]
  omega

/-- After `k` bytes the multiplier is `128 ^ k`, and the value read so far is below it. -/
theorem varlenLoop_ok {span : Bytes} {multiplier value : UInt32} {used k : ℕ} (hk : k ≤ 4)
    (hm : multiplier.toNat = 128 ^ k) (hv : value.toNat < 128 ^ k) {v : UInt32} {u : ℕ} :
    varlenLoop span multiplier value used = .ok (v, u) ↔
      ∃ enc rest n, span = enc ++ rest ∧ Base128.Word enc n ∧ enc.length + k ≤ 4 ∧
        v.toNat = value.toNat + 128 ^ k * n ∧ u = used + enc.length := by
  induction span generalizing multiplier value used k with
  | nil =>
    simp only [varlenLoop, reduceCtorEq, List.nil_eq, List.append_eq_nil_iff, false_iff]
    rintro ⟨enc, rest, n, ⟨rfl, -⟩, hw, -⟩
    exact hw.ne_nil rfl
  | cons b iter ih =>
    rw [Base128.word_prefix_iff, varlenLoop]
    by_cases h4 : k = 4
    · rw [if_pos ((multiplier_le_iff hk hm).mpr h4)]
      simp only [reduceCtorEq, List.length_cons, List.length_nil, false_iff]
      rintro (⟨-, h, -⟩ | ⟨-, enc, rest, n, -, -, h, -⟩) <;> omega
    · have hk' : k < 4 := by omega
      have hsum := accumulate_toNat (b := b) hk' hm hv
      have hcont := continuation_iff b
      rw [if_neg (fun h => h4 ((multiplier_le_iff hk hm).mp h))]
      by_cases hc : 128 ≤ b.toNat
      · have hlast : ¬ b.toNat < 128 := by omega
        cases iter with
        | nil =>
          rw [if_pos ⟨rfl, hcont.mpr hc⟩]
          simp only [reduceCtorEq, hlast, false_and, List.nil_eq, List.append_eq_nil_iff,
            false_or, false_iff]
          rintro ⟨-, enc, rest, n, ⟨rfl, -⟩, hw, -⟩
          exact hw.ne_nil rfl
        | cons b' iter =>
          have hlt : (value + (b &&& 127).toUInt32 * multiplier).toNat < 128 ^ (k + 1) := by
            have := Nat.mul_le_mul_left (128 ^ k) (show b.toNat % 128 ≤ 127 by omega)
            rw [hsum, pow_succ]
            omega
          rw [if_neg (by simp), if_pos (hcont.mpr hc), ih hk' (multiplier_toNat hk' hm) hlt, hsum]
          simp only [hlast, hc, false_and, true_and, false_or, List.length_cons]
          refine exists_congr fun enc => exists_congr fun rest => exists_congr fun n =>
            and_congr_right' (and_congr_right' (and_congr (by omega) (and_congr ?_ (by omega))))
          rw [pow_succ]
          constructor <;> intro h <;> rw [h] <;> ring
      · rw [if_neg (fun h => hc (hcont.mp h.2)), if_neg (fun h => hc (hcont.mp h))]
        have hlast : b.toNat < 128 := by omega
        simp only [Except.ok.injEq, Prod.mk.injEq, hlast, hc, false_and, true_and, or_false,
          List.length_singleton]
        rw [← UInt32.toNat_inj, hsum, Nat.mod_eq_of_lt hlast]
        constructor
        · rintro ⟨h, rfl⟩
          exact ⟨by omega, h.symm, rfl⟩
        · rintro ⟨-, h, rfl⟩
          exact ⟨h.symm, rfl⟩

theorem varlenLoop_error {span : Bytes} {multiplier value : UInt32} {used : ℕ} {e : Fault}
    (hne : span ≠ []) (h : varlenLoop span multiplier value used = .error e) : e.IsException := by
  induction span generalizing multiplier value used with
  | nil => exact absurd rfl hne
  | cons b iter ih =>
    simp only [varlenLoop] at h
    split_ifs at h with h₁ h₂ h₃
    · cases h
      exact .protocolError _
    · cases h
      exact .runtimeError _
    · exact ih (fun hi => h₂ ⟨hi, h₃⟩) h

theorem varlenInt_parses :
    Parses varlenInt (fun enc v => Base128.Word enc v.toNat ∧ enc.length ≤ 4) := by
  intro xs v rest
  have hloop := @varlenLoop_ok xs 1 0 0 0 (by decide) rfl (by decide) v
  rw [varlenInt, run_bind_of_ok (run_cspan xs)]
  constructor
  · intro h
    obtain ⟨⟨v', u⟩, mid, h₁, h₂⟩ := run_bind_ok.mp h
    obtain ⟨hr, rfl⟩ := run_liftM_ok.mp h₁
    cases h₂
    obtain ⟨enc, rest, n, rfl, hw, hlen, hval, rfl⟩ := hloop.mp hr
    refine ⟨enc, by simp, ?_, by omega⟩
    simpa [hval] using hw
  · rintro ⟨enc, rfl, hw, hlen⟩
    have hr := (hloop (u := enc.length)).mpr
      ⟨enc, rest, v.toNat, rfl, hw, by omega, by simp, by simp⟩
    rw [hr]
    change Except.ok (v, (enc ++ rest).drop enc.length) = _
    rw [List.drop_left]

theorem varlenInt_error {xs : Bytes} {e : Fault} (hne : xs ≠ [])
    (h : varlenInt.run xs = .error e) : e.IsException := by
  rw [varlenInt, run_bind_of_ok (run_cspan xs)] at h
  rcases run_bind_error.mp h with h | ⟨_, _, -, h⟩
  · exact varlenLoop_error hne (run_liftM_error.mp h)
  · cases h

theorem varlenBytes_digits {rounds : ℕ} {v : UInt32} (h : v.toNat < 128 ^ rounds)
    (hr : 0 < rounds) : varlenBytes rounds v = Base128.digits v.toNat := by
  induction rounds generalizing v with
  | zero => omega
  | succ rounds ih =>
    have hdiv : (v / 128).toNat = v.toNat / 128 := UInt32.toNat_div v 128
    have hmod : (v % 128).toNat = v.toNat % 128 := UInt32.toNat_mod v 128
    have hpos : v / 128 > 0 ↔ 128 ≤ v.toNat := by
      rw [gt_iff_lt, UInt32.lt_iff_toNat_lt, hdiv]
      change 0 < _ ↔ _
      omega
    have hlow : (v % 128).toUInt8.toNat = v.toNat % 128 := by
      rw [UInt32.toNat_toUInt8, hmod]
      omega
    rw [varlenBytes]
    by_cases hv : 128 ≤ v.toNat
    · rw [if_pos (hpos.mpr hv), Base128.digits_of_ge hv, ← hdiv]
      have hlt : (v / 128).toNat < 128 ^ rounds := by
        rw [hdiv, Nat.div_lt_iff_lt_mul (by decide), ← pow_succ]
        exact h
      have hr' : 0 < rounds := by
        rcases Nat.eq_zero_or_pos rounds with rfl | hp
        · simp at h
          omega
        · exact hp
      rw [ih hlt hr']
      congr 1
      rw [← UInt8.toNat_inj, UInt8.toNat_or, hlow, UInt8.toNat_ofNat', Nat.or_comm]
      change 2 ^ 7 * 1 ||| _ = _
      rw [← Nat.two_pow_add_eq_or_of_lt (by omega)]
      omega
    · rw [if_neg (fun hp => hv (hpos.mp hp)), Base128.digits_of_lt (by omega)]
      congr 1
      rw [← UInt8.toNat_inj, hlow, UInt8.toNat_ofNat']
      omega

theorem writeVarlen_eq (v : UInt32) :
    writeVarlen v = if v.toNat ≤ 268435455 then .emit (Base128.digits v.toNat)
      else .throw (.protocolError "value exceeding maximum allowed for varlen int") := by
  have hgt : v > varlenMax ↔ ¬ v.toNat ≤ 268435455 := by
    rw [gt_iff_lt, UInt32.lt_iff_toNat_lt, not_le]
    rfl
  have hlt : v.toNat < 128 ^ 5 := lt_of_lt_of_le v.toNat_lt (by norm_num)
  simp only [writeVarlen, hgt, ite_not, varlenBytes_digits hlt (by decide)]

/-- The word a value is written as is one its reader accepts. -/
theorem digits_varlen {v : UInt32} (h : v.toNat ≤ 268435455) :
    Base128.Word (Base128.digits v.toNat) v.toNat ∧ (Base128.digits v.toNat).length ≤ 4 :=
  ⟨Base128.digits_word _, Base128.digits_length_le (by norm_num; omega)⟩

/-! ## Strings, binaries and pairs -/

/-- A length field of two bytes and that many bytes after it. -/
def sizedBytes (data : Bytes) : Bytes := fixedIntBytes 2 data.length ++ data

def pairBytes (data : KeyValuePair) : Bytes := sizedBytes data.key ++ sizedBytes data.value

/-- What a length field of two bytes can count. -/
def Sized (data : Bytes) : Prop := data.length < 65536

instance (data : Bytes) : Decidable (Sized data) := inferInstanceAs (Decidable (_ < _))

def KeyValuePair.Sized (data : KeyValuePair) : Prop :=
  WirePrimitives.Sized data.key ∧ WirePrimitives.Sized data.value

instance (data : KeyValuePair) : Decidable data.Sized := inferInstanceAs (Decidable (_ ∧ _))

theorem sizedBytes_ne_nil (data : Bytes) : sizedBytes data ≠ [] := by
  simp [sizedBytes, fixedIntBytes]

theorem readString_parses :
    Parses readString (fun enc s => enc = sizedBytes s ∧ Sized s) := by
  refine (fixedInt16_parses.bind fun size => take_parses size.toNat id).congr fun enc s => ?_
  constructor
  · rintro ⟨_, size, e, rfl, rfl, hlen, rfl⟩
    refine ⟨by simp only [sizedBytes, hlen], ?_⟩
    have := size.toNat_lt
    simp only [Sized]
    omega
  · rintro ⟨rfl, hs⟩
    refine ⟨_, UInt16.ofNat s.length, s, rfl, ?_, ?_, rfl⟩ <;>
      rw [UInt16.toNat_ofNat', Nat.mod_eq_of_lt hs]

theorem readString_throws : Throws readString :=
  fixedInt16_throws.bind fun size => take_throws size.toNat id

/-- `binary` differs from `string` only in the exception it throws. -/
theorem readBinary_parses :
    Parses readBinary (fun enc s => enc = sizedBytes s ∧ Sized s) := by
  intro xs s rest
  rw [← readString_parses xs s rest, readBinary, readString, run_bind_ok, run_bind_ok]
  refine exists_congr fun size => exists_congr fun mid => and_congr_right fun _ => ?_
  rw [run_take size.toNat (fun d => d), run_bind_of_ok (run_cspan mid)]
  split
  · constructor <;> intro h <;> cases h
  · rfl

theorem readBinary_throws : Throws readBinary := by
  refine fixedInt16_throws.bind fun size => ?_
  intro xs e h
  rw [run_bind_of_ok (run_cspan xs)] at h
  split at h
  · cases h
    exact .protocolError _
  · cases h

theorem readPair_parses :
    Parses readPair (fun enc kv => enc = pairBytes kv ∧ kv.Sized) := by
  refine (readString_parses.bind fun key => readString_parses.bind fun value =>
    Parses.pure (KeyValuePair.mk key value)).congr fun enc kv => ?_
  constructor
  · rintro ⟨_, key, _, rfl, ⟨rfl, hk⟩, _, value, _, rfl, ⟨rfl, hv⟩, rfl, rfl⟩
    exact ⟨by simp [pairBytes], hk, hv⟩
  · rintro ⟨rfl, hk, hv⟩
    exact ⟨_, kv.key, _, rfl, ⟨rfl, hk⟩, sizedBytes kv.value, kv.value, [], by simp, ⟨rfl, hv⟩,
      rfl, rfl⟩

theorem readPair_throws : Throws readPair :=
  readString_throws.bind fun _ => readString_throws.bind fun _ => .pure _

theorem writeString_eq {data : Bytes} (h : Sized data) : writeString data = .emit (sizedBytes data) := by
  rw [writeString, writeInt16, UInt16.toNat_ofNat', Nat.mod_eq_of_lt h]
  rfl

theorem writeBinary_eq {data : Bytes} (h : Sized data) : writeBinary data = .emit (sizedBytes data) :=
  writeString_eq h

theorem writePair_eq {data : KeyValuePair} (h : data.Sized) :
    writePair data = .emit (pairBytes data) := by
  rw [writePair, writeString_eq h.1, writeString_eq h.2]
  rfl

end Mqtt5.WirePrimitives
