import Mqtt5.WireSections

/-!
# Reading back what was written

`Reads` and `ReadsAll` relate a reader to a writer, and compose as their two bodies do.
-/
namespace Mqtt5.WireReads
open ByteParser ByteWriter WirePrimitives WireProperties

variable {α β : Type}

/-- What `w` writes is read as `a`, whatever follows it. -/
def Reads (p : Reader α) (w : Writer) (a : α) : Prop :=
  ∀ ⦃zs⦄, w = .emit zs → zs.length < 2 ^ 32 → Decodes p zs a

/-- What `w` writes is read as `a` when nothing follows it. -/
def ReadsAll (p : Reader α) (w : Writer) (a : α) : Prop :=
  ∀ ⦃zs⦄, w = .emit zs → zs.length < 2 ^ 32 → ∃ rest, p.run zs = .ok (a, rest)

theorem Reads.all {p : Reader α} {w : Writer} {a : α} (h : Reads p w a) : ReadsAll p w a := by
  intro zs hw hlen
  have := h hw hlen []
  rw [List.append_nil] at this
  exact ⟨[], this⟩

theorem Reads.bind {p : Reader α} {f : α → Reader β} {w v : Writer} {a : α} {b : β}
    (h₁ : Reads p w a) (h₂ : Reads (f a) v b) : Reads (p >>= f) (w ++ v) b := by
  intro zs hw hlen
  obtain ⟨xs, ys, hx, hy, rfl⟩ := Written.append_eq_emit.mp hw
  rw [List.length_append] at hlen
  exact (h₁ hx (by omega)).bind (h₂ hy (by omega))

theorem Reads.bindAll {p : Reader α} {f : α → Reader β} {w v : Writer} {a : α} {b : β}
    (h₁ : Reads p w a) (h₂ : ReadsAll (f a) v b) : ReadsAll (p >>= f) (w ++ v) b := by
  intro zs hw hlen
  obtain ⟨xs, ys, hx, hy, rfl⟩ := Written.append_eq_emit.mp hw
  rw [List.length_append] at hlen
  rw [(h₁ hx (by omega)).bind_run]
  exact h₂ hy (by omega)

theorem Reads.pure (a : α) : Reads (Pure.pure a : Reader α) (.emit []) a := by
  intro zs hw _
  cases hw
  exact .pure a

theorem Reads.map {p : Reader α} {w : Writer} {a : α} (h : Reads p w a) (f : α → β) :
    Reads (f <$> p) w (f a) := by
  intro zs hw hlen rest
  rw [run_map_ok]
  exact ⟨a, h hw hlen rest, rfl⟩

theorem ReadsAll.map {p : Reader α} {w : Writer} {a : α} (h : ReadsAll p w a) (f : α → β) :
    ReadsAll (f <$> p) w (f a) := by
  intro zs hw hlen
  obtain ⟨rest, hr⟩ := h hw hlen
  exact ⟨rest, run_map_ok.mpr ⟨a, hr, rfl⟩⟩

/-- The `return` at the end of a reader. -/
theorem Reads.last {p : Reader α} {w : Writer} {a : α} (h : Reads p w a) (f : α → β) :
    Reads (p >>= fun x => Pure.pure (f x)) w (f a) := h.map f

theorem ReadsAll.last {p : Reader α} {w : Writer} {a : α} (h : ReadsAll p w a) (f : α → β) :
    ReadsAll (p >>= fun x => Pure.pure (f x)) w (f a) := h.map f

theorem Reads.emit {p : Reader α} {enc : Bytes} {a : α} (h : Decodes p enc a) :
    Reads p (.emit enc) a := by
  intro zs hw _
  cases hw
  exact h

theorem reads_int8 (v : UInt8) : Reads fixedInt8 (writeInt8 v) v := by
  rw [writeInt8_eq]
  exact .emit (fixedInt8_parses.decodes rfl)

theorem reads_int16 (v : UInt16) : Reads fixedInt16 (writeInt16 v) v :=
  .emit (fixedInt16_parses.decodes rfl)

theorem reads_string {s : Bytes} (h : Sized s) : Reads readString (writeString s) s := by
  rw [writeString_eq h]
  exact .emit (readString_parses.decodes ⟨rfl, h⟩)

theorem reads_binary {s : Bytes} (h : Sized s) : Reads readBinary (writeBinary s) s := by
  rw [writeBinary_eq h]
  exact .emit (readBinary_parses.decodes ⟨rfl, h⟩)

theorem reads_section {σ : Type} {S : PropertySection σ} {s : σ} (h : S.WellFormed s) :
    Reads S.deserialize (S.serialize s) (S.decoded s) :=
  fun _ hw hlen => PropertySection.decodes h hw hlen

theorem readsAll_cspan (data : Bytes) : ReadsAll cspan (.emit data) data := by
  intro zs hw _
  cases hw
  exact ⟨data, run_cspan data⟩

/-- A loop over the rest of a span reads back one element after another. -/
theorem readsAll_untilEmpty {stuck : Fault} {p : Reader α} {f : α → Writer} {as : List α}
    (hp : Progress p) (h : ∀ a ∈ as, Reads p (f a) a) :
    ReadsAll (untilEmpty stuck p) (Written.forEach f as) as := by
  induction as with
  | nil =>
    intro zs hw _
    cases hw
    exact ⟨[], rfl⟩
  | cons a as ih =>
    intro zs hw hlen
    rw [Written.forEach_cons] at hw
    obtain ⟨xs, ys, hx, hy, rfl⟩ := Written.append_eq_emit.mp hw
    rw [List.length_append] at hlen
    have ha := h a (by simp) hx (by omega)
    obtain ⟨x, xs, rfl⟩ : ∃ x xs', xs = x :: xs' := by
      cases xs with
      | nil => exact absurd (hp (ha [])) (by simp)
      | cons x xs => exact ⟨x, xs, rfl⟩
    obtain ⟨rest, hr⟩ := ih (fun b hb => h b (by simp [hb])) hy (by omega)
    refine ⟨rest, ?_⟩
    rw [List.cons_append, untilEmpty_cons hp, ← List.cons_append, ha.bind_run]
    exact run_bind_ok.mpr ⟨as, rest, hr, rfl⟩

/-- A body deserializer takes a span of its own out of the packet's bytes. -/
theorem readsAll_onSpan {p : Reader α} {w : Writer} {a : α} (h : ReadsAll p w a) {zs : Bytes}
    (hw : w = .emit zs) {size : ℕ} (hsize : size = zs.length) (hlen : zs.length < 2 ^ 32) :
    (onSpan size p).run zs = .ok (a, zs) := by
  obtain ⟨rest, hr⟩ := h hw hlen
  refine run_bind_ok.mpr ⟨zs, zs, by rw [run_cspanN, hsize]; simp, ?_⟩
  refine run_bind_ok.mpr ⟨(a, rest), zs, by rw [hr]; rfl, rfl⟩

end Mqtt5.WireReads
