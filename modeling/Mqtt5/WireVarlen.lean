import Mqtt5.WireFraming

/-!
# Variable byte integers

`varlen_int::deserialize` stops in one of four ways, and the first bytes of the span say in
which. `can_deserialize` is what the header reader asks before it calls it.
-/
namespace Mqtt5.WireVarlen
open ByteParser ByteWriter WirePrimitives WireHeader WireFraming

/-! ## What the first bytes decide -/

/-- The value read so far is below the weight of the digit that is read next. -/
theorem accumulate_lt {value multiplier : UInt32} {b : UInt8} {k : ℕ} (hk : k < 4)
    (hm : multiplier.toNat = 128 ^ k) (hv : value.toNat < 128 ^ k) :
    (value + (b &&& 127).toUInt32 * multiplier).toNat < 128 ^ (k + 1) := by
  have hdigit := Nat.mul_le_mul_left (128 ^ k) (show b.toNat % 128 ≤ 127 by omega)
  rw [accumulate_toNat hk hm hv, pow_succ]
  omega

/-- No byte ends the value and the span holds four of them at most. -/
theorem varlenLoop_starved {span : Bytes} {multiplier value : UInt32} {used k : ℕ}
    (hne : span ≠ []) (hm : multiplier.toNat = 128 ^ k) (hv : value.toNat < 128 ^ k)
    (hlen : span.length + k ≤ 4) (hall : ∀ b ∈ span, 128 ≤ b.toNat) :
    varlenLoop span multiplier value used = .error (.runtimeError "not enough data") := by
  induction span generalizing multiplier value used k with
  | nil => exact absurd rfl hne
  | cons b iter ih =>
    simp only [List.length_cons] at hlen
    have hk : k < 4 := by omega
    have hcont := (continuation_iff b).mpr (hall b (by simp))
    rw [varlenLoop, if_neg (fun h => by have := (multiplier_le_iff hk.le hm).mp h; omega)]
    by_cases hlast : iter = []
    · rw [if_pos ⟨hlast, hcont⟩]
    · rw [if_neg (fun h => hlast h.1), if_pos hcont]
      apply ih hlast (multiplier_toNat hk hm) (accumulate_lt hk hm hv) (by omega)
      intro c hc
      exact hall c (by simp [hc])

/-- The multiplier is tested after the sum, so a fifth byte is refused whatever it is. -/
theorem varlenLoop_overflow {cs rest : Bytes} {b : UInt8} {multiplier value : UInt32} {used k : ℕ}
    (hm : multiplier.toNat = 128 ^ k) (hv : value.toNat < 128 ^ k) (hlen : cs.length + k = 4)
    (hall : ∀ c ∈ cs, 128 ≤ c.toNat) :
    varlenLoop (cs ++ b :: rest) multiplier value used =
      .error (.protocolError "data overflow") := by
  induction cs generalizing multiplier value used k with
  | nil =>
    obtain rfl : k = 4 := by simpa using hlen
    rw [List.nil_append, varlenLoop, if_pos ((multiplier_le_iff (Nat.le_refl 4) hm).mpr rfl)]
  | cons c cs ih =>
    simp only [List.length_cons] at hlen
    have hk : k < 4 := by omega
    have hcont := (continuation_iff c).mpr (hall c (by simp))
    rw [List.cons_append, varlenLoop,
      if_neg (fun h => by have := (multiplier_le_iff hk.le hm).mp h; omega),
      if_neg (fun h => by simpa using h.1), if_pos hcont]
    apply ih (multiplier_toNat hk hm) (accumulate_lt hk hm hv) (by omega)
    intro d hd
    exact hall d (by simp [hd])

theorem varlenInt_of_loop {xs : Bytes} {e : Fault} (h : varlenLoop xs 1 0 0 = .error e) :
    varlenInt.run xs = .error e := by
  rw [varlenInt, run_bind_of_ok (run_cspan xs)]
  exact run_bind_of_error (run_liftM_error.mpr h)

theorem varlenInt_starved {d : Bytes} (hne : d ≠ []) (hlen : d.length ≤ 4)
    (hall : ∀ b ∈ d, 128 ≤ b.toNat) :
    varlenInt.run d = .error (.runtimeError "not enough data") :=
  varlenInt_of_loop (varlenLoop_starved (k := 0) hne rfl (by decide) hlen hall)

theorem varlenInt_overflow {cs rest : Bytes} {b : UInt8} (hlen : cs.length = 4)
    (hall : ∀ c ∈ cs, 128 ≤ c.toNat) :
    varlenInt.run (cs ++ b :: rest) = .error (.protocolError "data overflow") :=
  varlenInt_of_loop (varlenLoop_overflow (k := 0) rfl (by decide) hlen hall)

/-- A span starts with a value, is too short to hold one, or does not end one in its
first four bytes. -/
theorem span_cases (d : Bytes) :
    (∃ enc rest n, d = enc ++ rest ∧ Base128.Word enc n ∧ enc.length ≤ 4) ∨
      (d.length ≤ 4 ∧ ∀ b ∈ d, 128 ≤ b.toNat) ∨
      ∃ cs b rest, d = cs ++ b :: rest ∧ cs.length = 4 ∧ ∀ c ∈ cs, 128 ≤ c.toNat := by
  obtain hword | hall := Base128.word_or_continues 4 d
  · exact .inl hword
  · by_cases hlen : d.length ≤ 4
    · rw [List.take_of_length_le hlen] at hall
      exact .inr (.inl ⟨hlen, hall⟩)
    · obtain ⟨b, rest, hdrop⟩ := List.exists_cons_of_ne_nil (l := d.drop 4)
        (by rw [Ne, List.drop_eq_nil_iff]; exact hlen)
      have hsplit := List.take_append_drop 4 d
      rw [hdrop] at hsplit
      exact .inr (.inr ⟨d.take 4, b, rest, hsplit.symm, by simp; omega, hall⟩)

/-! ## The codec -/

/-- What the writer does with `v`, and what the reader makes of it. -/
structure Codec (v : UInt32) (enc : Bytes) : Prop where
  written : writeVarlen v = .emit enc
  length : 1 ≤ enc.length ∧ enc.length ≤ 4
  /-- One byte more at each power of 128. -/
  powers : ∀ k, enc.length ≤ k + 1 ↔ v.toNat < 128 ^ (k + 1)
  /-- Whatever is read as `v` takes as many bytes at least. -/
  fewest : ∀ d rest, varlenInt.run d = .ok (v, rest) → enc.length + rest.length ≤ d.length
  read : ∀ s, varlenInt.run (enc ++ s) = .ok (v, s)

/-- What a successful read says of the bytes it took. -/
structure Consumed (v : UInt32) (used : Bytes) : Prop where
  length : 1 ≤ used.length ∧ used.length ≤ 4
  value : v.toNat = Nat.ofDigits 128 (used.map fun b => b.toNat % 128)
  small : v.toNat ≤ 268435455

theorem codec_digits {v : UInt32} (h : v.toNat ≤ 268435455) :
    Codec v (Base128.digits v.toNat) := by
  have hword := digits_varlen h
  have hpos := List.length_pos_iff.mpr (Base128.digits_word v.toNat).ne_nil
  constructor
  · rw [writeVarlen_eq, if_pos h]
  · exact ⟨hpos, hword.2⟩
  · intro k
    exact Base128.digits_length_le_iff
  · intro d rest hrun
    obtain ⟨enc, rfl, hw, -⟩ := (varlenInt_parses _ _ _).mp hrun
    have hle := hw.digits_length_le
    rw [List.length_append]
    omega
  · exact varlenInt_parses.decodes hword

theorem consumed_of_run {d rest : Bytes} {v : UInt32} (h : varlenInt.run d = .ok (v, rest)) :
    ∃ used, d = used ++ rest ∧ Consumed v used := by
  obtain ⟨used, rfl, hw, hlen⟩ := (varlenInt_parses _ _ _).mp h
  have hpos := List.length_pos_iff.mpr hw.ne_nil
  have hlt := hw.lt
  have hpow : 128 ^ used.length ≤ 128 ^ 4 := Nat.pow_le_pow_right (by decide) hlen
  refine ⟨used, rfl, ⟨hpos, hlen⟩, hw.eq_ofDigits, ?_⟩
  norm_num at hpow
  omega

theorem varlen_codec :
    (∀ v : UInt32, v.toNat ≤ 268435455 → ∃ enc, Codec v enc) ∧
    (∀ v : UInt32, 268435455 < v.toNat → writeVarlen v =
      .throw (.protocolError "value exceeding maximum allowed for varlen int")) ∧
    ∀ (d rest : Bytes) (v : UInt32), varlenInt.run d = .ok (v, rest) →
      ∃ used, d = used ++ rest ∧ Consumed v used := by
  refine ⟨?_, ?_, ?_⟩
  · intro v hv
    exact ⟨_, codec_digits hv⟩
  · intro v hv
    rw [writeVarlen_eq, if_neg (Nat.not_le.mpr hv)]
  · intro d rest v hrun
    exact consumed_of_run hrun

theorem varlen_codec_limits :
    (∃ enc, Codec 268435455 enc) ∧
    writeVarlen 268435456 =
      .throw (.protocolError "value exceeding maximum allowed for varlen int") ∧
    ∃ used, [0x80, 0x00, 7] = used ++ [7] ∧ Consumed 0 used :=
  ⟨varlen_codec.1 _ (by decide), varlen_codec.2.1 _ (by decide), varlen_codec.2.2 _ _ _ (by decide)⟩

/-! ## The question and the answer -/

/-- The same value with the same bytes taken, or `protocol_error` in both. -/
def SameOutcome {α : Type} (s : Bytes) (x y : Except Fault (α × Bytes)) : Prop :=
  (∃ a rest, x = .ok (a, rest) ∧ y = .ok (a, rest ++ s)) ∨
    ∃ w w', x = .error (.protocolError w) ∧ y = .error (.protocolError w')

/-- `can_deserialize` of `d` says what `deserialize` will do, and the header reader built on
the two decides alike on `d` and on `d` with more bytes behind it. -/
structure Agrees (d s : Bytes) : Prop where
  starved : canDeserialize d = false →
    varlenInt.run d = .error (.runtimeError "not enough data")
  enough : canDeserialize d = true →
    varlenInt.run d ≠ .error (.runtimeError "not enough data")
  same : canDeserialize d = true → SameOutcome s (varlenInt.run d) (varlenInt.run (d ++ s))
  /-- While the header reader asks for more, it asks for a fifth byte at most. -/
  five : ∀ t, headerPredicate (t :: d) ≠ 0 →
    (t :: d).length + headerPredicate (t :: d) ≤ 5
  verdict : ∀ t, headerPredicate (t :: d) = 0 →
    SameOutcome s (Header.deserialize.run (t :: d)) (Header.deserialize.run (t :: d ++ s))

/-- Four bytes, each of which says that another follows. -/
def FourContinued (d : Bytes) : Prop := d.length = 4 ∧ ∀ b ∈ d, 128 ≤ b.toNat

instance (d : Bytes) : Decidable (FourContinued d) := inferInstanceAs (Decidable (_ ∧ _))

theorem canDeserialize_of_continued {d : Bytes} (hall : ∀ b ∈ d, 128 ≤ b.toNat) :
    canDeserialize d = true ↔ 4 ≤ d.length := by
  rw [canDeserialize_iff]
  constructor
  · intro h
    obtain hlen | ⟨b, hb, hlt⟩ := h
    · exact hlen
    · have hge := hall b hb
      omega
  · exact Or.inl

/-- The header reader asks about the bytes behind the first. -/
theorem headerPredicate_cons (t : UInt8) {d : Bytes} (hne : d ≠ []) :
    headerPredicate (t :: d) = if canDeserialize d then 0 else 1 := by
  have hpos := List.length_pos_iff.mpr hne
  have hlong : ¬ (t :: d).length < 2 := by
    rw [List.length_cons]
    omega
  rw [headerPredicate, if_neg hlong, List.tail_cons]

theorem header_run (t : UInt8) (d : Bytes) :
    Header.deserialize.run (t :: d) =
      (varlenInt.run d).map fun r => (⟨t, r.1⟩, r.2) := by
  cases h : varlenInt.run d with
  | ok r =>
    change ((varlenInt >>= fun v => pure (⟨t, v⟩ : Header)) : Reader Header).run d = _
    rw [run_bind_of_ok h]
    rfl
  | error e =>
    change ((varlenInt >>= fun v => pure (⟨t, v⟩ : Header)) : Reader Header).run d = _
    rw [run_bind_of_error h]
    rfl

theorem SameOutcome.header {d s : Bytes} (h : SameOutcome s (varlenInt.run d) (varlenInt.run (d ++ s)))
    (t : UInt8) :
    SameOutcome s (Header.deserialize.run (t :: d)) (Header.deserialize.run (t :: d ++ s)) := by
  rw [List.cons_append, header_run, header_run]
  obtain ⟨v, rest, hd, hs⟩ | ⟨w, w', hd, hs⟩ := h
  · exact .inl ⟨⟨t, v⟩, rest, by rw [hd]; rfl, by rw [hs]; rfl⟩
  · exact .inr ⟨w, w', by rw [hd]; rfl, by rw [hs]; rfl⟩

theorem sameOutcome_of_word {enc rest s : Bytes} {n : ℕ} (hw : Base128.Word enc n)
    (hlen : enc.length ≤ 4) :
    SameOutcome s (varlenInt.run (enc ++ rest)) (varlenInt.run (enc ++ rest ++ s)) := by
  have hlt := hw.lt
  have hpow : 128 ^ enc.length ≤ 128 ^ 4 := Nat.pow_le_pow_right (by decide) hlen
  have hnat : (UInt32.ofNat n).toNat = n := by
    rw [UInt32.toNat_ofNat']
    norm_num at hpow ⊢
    omega
  have hdec := varlenInt_parses.decodes (a := UInt32.ofNat n) ⟨hnat.symm ▸ hw, hlen⟩
  refine .inl ⟨UInt32.ofNat n, rest, hdec rest, ?_⟩
  rw [List.append_assoc]
  exact hdec (rest ++ s)

theorem sameOutcome_of_overflow {cs rest s : Bytes} {b : UInt8} (hlen : cs.length = 4)
    (hall : ∀ c ∈ cs, 128 ≤ c.toNat) :
    SameOutcome s (varlenInt.run (cs ++ b :: rest)) (varlenInt.run (cs ++ b :: rest ++ s)) := by
  refine .inr ⟨"data overflow", "data overflow", varlenInt_overflow hlen hall, ?_⟩
  rw [List.append_assoc, List.cons_append]
  exact varlenInt_overflow hlen hall

theorem sameOutcome_of_can {d : Bytes} (hnot : ¬ FourContinued d) (hcan : canDeserialize d = true)
    (s : Bytes) : SameOutcome s (varlenInt.run d) (varlenInt.run (d ++ s)) := by
  obtain ⟨enc, rest, n, rfl, hw, hlen⟩ | ⟨hlen, hall⟩ | ⟨cs, b, rest, rfl, hlen, hall⟩ :=
    span_cases d
  · exact sameOutcome_of_word hw hlen
  · have hfour := (canDeserialize_of_continued hall).mp hcan
    exact absurd ⟨by omega, hall⟩ hnot
  · exact sameOutcome_of_overflow hlen hall

theorem starved_of_not_can {d : Bytes} (hne : d ≠ []) (hcan : canDeserialize d = false) :
    varlenInt.run d = .error (.runtimeError "not enough data") := by
  have hno : ¬ (4 ≤ d.length ∨ ∃ b ∈ d, b.toNat < 128) := by
    rw [← canDeserialize_iff, hcan]
    decide
  apply varlenInt_starved hne
  · by_contra hlong
    exact hno (.inl (by omega))
  · intro b hb
    by_contra hlt
    exact hno (.inr ⟨b, hb, by omega⟩)

theorem header_asks_five (t : UInt8) {d : Bytes} (hne : d ≠ []) (h : headerPredicate (t :: d) ≠ 0) :
    (t :: d).length + headerPredicate (t :: d) ≤ 5 := by
  rw [headerPredicate_cons t hne] at h ⊢
  split_ifs at h ⊢ with hcan
  · exact absurd rfl h
  · have hlen : ¬ 4 ≤ d.length := fun h4 => hcan ((canDeserialize_iff d).mpr (.inl h4))
    rw [List.length_cons]
    omega

theorem agrees_of_not_fourContinued {d : Bytes} (hne : d ≠ []) (hnot : ¬ FourContinued d)
    (s : Bytes) : Agrees d s := by
  constructor
  · exact starved_of_not_can hne
  · intro hcan herr
    obtain ⟨v, rest, hrun, -⟩ | ⟨w, -, hrun, -⟩ := sameOutcome_of_can hnot hcan s
    · rw [hrun] at herr
      cases herr
    · rw [hrun] at herr
      cases herr
  · intro hcan
    exact sameOutcome_of_can hnot hcan s
  · intro t
    exact header_asks_five t hne
  · intro t ht
    have hcan : canDeserialize d = true := by
      by_contra hcan
      rw [headerPredicate_cons t hne, if_neg hcan] at ht
      cases ht
    exact (sameOutcome_of_can hnot hcan s).header t

/-- Four bytes that all continue are enough for `can_deserialize`; `deserialize` tests for
the end of the span before it would test for a fifth byte. -/
theorem can_deserialize_agrees_iff (d s : Bytes) (hne : d ≠ []) :
    Agrees d s ↔ ¬ FourContinued d := by
  constructor
  · intro h hfour
    have hcan := (canDeserialize_of_continued hfour.2).mpr hfour.1.ge
    exact h.enough hcan (varlenInt_starved hne hfour.1.le hfour.2)
  · intro hnot
    exact agrees_of_not_fourContinued hne hnot s

theorem can_deserialize_agrees_threeBytes :
    Agrees [0x80, 0x80, 0x80] [1] ↔ ¬ FourContinued [0x80, 0x80, 0x80] :=
  can_deserialize_agrees_iff _ _ (by decide)

/-- The fifth byte decides what a connection reports of the same bytes. -/
theorem four_continued_disagree :
    canDeserialize [0x80, 0x80, 0x80, 0x80] = true ∧
    varlenInt.run [0x80, 0x80, 0x80, 0x80] = .error (.runtimeError "not enough data") ∧
    varlenInt.run ([0x80, 0x80, 0x80, 0x80] ++ [1]) = .error (.protocolError "data overflow") ∧
    headerPredicate [0x30, 0x80, 0x80, 0x80, 0x80] = 0 ∧
    Header.deserialize.run [0x30, 0x80, 0x80, 0x80, 0x80] =
      .error (.runtimeError "not enough data") ∧
    ¬ ∀ d s : Bytes, d ≠ [] → Agrees d s := by
  have hcan : canDeserialize [0x80, 0x80, 0x80, 0x80] = true := by decide
  have hrun : varlenInt.run [0x80, 0x80, 0x80, 0x80] = .error (.runtimeError "not enough data") :=
    by decide
  refine ⟨hcan, hrun, by decide, by decide, by decide, ?_⟩
  intro h
  exact (h [0x80, 0x80, 0x80, 0x80] [] (by decide)).enough hcan hrun

end Mqtt5.WireVarlen
