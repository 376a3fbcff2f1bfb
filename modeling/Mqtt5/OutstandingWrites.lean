import Mathlib.Data.List.Basic
import Mathlib.Tactic.Common

/-!
# Outstanding writes on one stream

Buffers are submitted to a stream, and each is transmitted by successive partial writes.
The stream does not order the partial writes of two buffers.
-/
namespace Mqtt5.OutstandingWrites
variable {β : Type}

/-- A buffer, and how far it was transmitted. -/
structure Write (β : Type) where
  written : List β := []
  rest : List β

namespace Write

def buffer (w : Write β) : List β := w.written ++ w.rest

/-- The next `n` bytes are transmitted. -/
def advance (n : ℕ) (w : Write β) : Write β := ⟨w.written ++ w.rest.take n, w.rest.drop n⟩

theorem buffer_advance (n : ℕ) (w : Write β) : (w.advance n).buffer = w.buffer := by
  rw [buffer, advance, List.append_assoc, List.take_append_drop, buffer]

end Write

structure Stream (β : Type) where
  /-- In the order in which they were submitted. -/
  writes : List (Write β) := []
  /-- What was put on the stream, each byte with the place of its buffer. -/
  trace : List (ℕ × β) := []

namespace Stream

def bytes (s : Stream β) : List β := s.trace.map (·.2)

/-- The buffers that were submitted. -/
def buffers (s : Stream β) : List (List β) := s.writes.map (·.buffer)

def submit (s : Stream β) (buffers : List (List β)) : Stream β :=
  { s with writes := s.writes ++ buffers.map fun rest => { rest } }

/-- A partial write puts some of what remains on the stream, but not nothing. -/
def transmit (s : Stream β) (i n : ℕ) : Option (Stream β) :=
  s.writes[i]?.bind fun w =>
    if 0 < n ∧ n ≤ w.rest.length then
      some ⟨s.writes.set i (w.advance n), s.trace ++ (w.rest.take n).map (i, ·)⟩
    else none

/-- What a partial write of the buffer at `i` does. -/
structure Transmitted (s : Stream β) (i n : ℕ) (t : Stream β) (w : Write β) : Prop where
  write : s.writes[i]? = some w
  rest : w.rest ≠ []
  writes : t.writes = s.writes.set i (w.advance n)
  trace : t.trace = s.trace ++ (w.rest.take n).map (i, ·)

theorem transmitted_of_eq {s t : Stream β} {i n : ℕ} (h : s.transmit i n = some t) :
    ∃ w, Transmitted s i n t w := by
  obtain ⟨w, hw, h⟩ := Option.bind_eq_some_iff.mp h
  split at h
  case isTrue hn =>
    cases h
    refine ⟨w, hw, ?_, rfl, rfl⟩
    intro hnil
    rw [hnil, List.length_nil] at hn
    omega
  case isFalse => cases h

theorem buffers_submit (s : Stream β) (new : List (List β)) :
    (s.submit new).buffers = s.buffers ++ new := by
  rw [buffers, submit, List.map_append, List.map_map]
  exact congrArg _ (List.map_id new)

/-- Where the buffers before a submission are found after it. -/
theorem buffers_submit_old (s : Stream β) (new : List (List β)) {places : List ℕ}
    (h : ∀ place ∈ places, (s.buffers[place]?).isSome) :
    places.map ((s.submit new).buffers[·]?) = places.map (s.buffers[·]?) := by
  apply List.map_congr_left
  intro place hplace
  have hlt : place < s.buffers.length := by simpa using h place hplace
  rw [buffers_submit, List.getElem?_append_left hlt]

/-- Where the buffers of a submission are found. -/
theorem buffers_submit_new (s : Stream β) (new : List (List β)) :
    (List.range' s.writes.length new.length).map ((s.submit new).buffers[·]?) = new.map some := by
  have hlength : s.writes.length = s.buffers.length := (List.length_map _).symm
  apply List.ext_getElem
  · rw [List.length_map, List.length_range', List.length_map]
  · intro i hi hi'
    rw [List.getElem_map, List.getElem_map, List.getElem_range', buffers_submit, hlength,
      Nat.one_mul, List.getElem?_append_right (Nat.le_add_right _ _), Nat.add_sub_cancel_left]
    rw [List.length_map] at hi'
    exact List.getElem?_eq_getElem hi'

section Transmitted
variable {s t : Stream β} {i n : ℕ} {w : Write β}

/-- The buffers before and after the one that is transmitted. -/
theorem Transmitted.split (h : Transmitted s i n t w) :
    s.writes = s.writes.take i ++ w :: s.writes.drop (i + 1) ∧
      t.writes = s.writes.take i ++ w.advance n :: s.writes.drop (i + 1) := by
  obtain ⟨hi, rfl⟩ := List.getElem?_eq_some_iff.mp h.write
  constructor
  · rw [List.getElem_cons_drop, List.take_append_drop]
  · rw [h.writes, List.set_eq_take_append_cons_drop, if_pos hi]

theorem Transmitted.buffers (h : Transmitted s i n t w) : t.buffers = s.buffers := by
  obtain ⟨hs, ht⟩ := h.split
  rw [Stream.buffers, ht, List.map_append, List.map_cons, w.buffer_advance]
  conv_rhs => rw [Stream.buffers, hs, List.map_append, List.map_cons]

end Transmitted

/-! ## Every order of partial writes -/

/-- What the stream has got of each buffer is what was transmitted of it, in its order, and
the stream has got nothing else. -/
structure InPieces (s : Stream β) : Prop where
  places : ∀ entry ∈ s.trace, entry.1 < s.writes.length
  pieces : ∀ i w, s.writes[i]? = some w →
    (s.trace.filter (·.1 = i)).map (·.2) = w.written

theorem InPieces.submit {s : Stream β} (h : InPieces s) (new : List (List β)) :
    InPieces (s.submit new) where
  places entry hentry := by
    have hlt := h.places entry hentry
    rw [Stream.submit, List.length_append]
    omega
  pieces i w hw := by
    rw [Stream.submit] at hw
    rcases Nat.lt_or_ge i s.writes.length with hi | hi
    · rw [List.getElem?_append_left hi] at hw
      exact h.pieces i w hw
    · rw [List.getElem?_append_right hi] at hw
      obtain ⟨rest, -, rfl⟩ := List.mem_map.mp (List.mem_of_getElem? hw)
      have hnone : s.trace.filter (·.1 = i) = [] := by
        apply List.filter_eq_nil_iff.mpr
        intro entry hentry
        have hlt := h.places entry hentry
        simp
        omega
      rw [Stream.submit, hnone]
      rfl

theorem InPieces.transmit {s t : Stream β} {i n : ℕ} {w : Write β} (h : InPieces s)
    (ht : Transmitted s i n t w) : InPieces t := by
  obtain ⟨hi, -⟩ := List.getElem?_eq_some_iff.mp ht.write
  constructor
  · intro entry hentry
    rw [ht.writes, List.length_set]
    rw [ht.trace] at hentry
    rcases List.mem_append.mp hentry with hentry | hentry
    · exact h.places entry hentry
    · obtain ⟨byte, -, rfl⟩ := List.mem_map.mp hentry
      exact hi
  · intro j v hv
    rw [ht.writes, List.getElem?_set] at hv
    rw [ht.trace, List.filter_append, List.map_append]
    by_cases hj : i = j
    · subst hj
      rw [if_pos rfl, if_pos hi] at hv
      cases hv
      have hall : ((w.rest.take n).map fun byte => (i, byte)).filter (·.1 = i) =
          (w.rest.take n).map fun byte => (i, byte) := by
        apply List.filter_eq_self.mpr
        intro entry hentry
        obtain ⟨byte, -, rfl⟩ := List.mem_map.mp hentry
        simp
      rw [h.pieces i w ht.write, hall, List.map_map]
      exact congrArg _ (List.map_id _)
    · rw [if_neg hj] at hv
      have hnone : ((w.rest.take n).map fun byte => (i, byte)).filter (·.1 = j) = [] := by
        apply List.filter_eq_nil_iff.mpr
        intro entry hentry
        obtain ⟨byte, -, rfl⟩ := List.mem_map.mp hentry
        simpa using hj
      rw [hnone, List.map_nil, List.append_nil]
      exact h.pieces j v hv

/-! ## Partial writes in the order of submission -/

/-- The buffers before the one at `i` were transmitted whole. -/
def InTurn (s : Stream β) (i : ℕ) : Prop := ∀ w ∈ s.writes.take i, w.rest = []

/-- The buffers were transmitted one after the other. -/
structure Consecutive (s : Stream β) : Prop where
  bytes : s.bytes = (s.writes.map (·.written)).flatten
  order : s.writes.Pairwise fun w v => w.rest = [] ∨ v.written = []

theorem flatten_unwritten {writes : List (Write β)} (h : ∀ w ∈ writes, w.written = []) :
    (writes.map (·.written)).flatten = [] := by
  rw [List.flatten_eq_nil_iff]
  intro written hwritten
  obtain ⟨w, hw, rfl⟩ := List.mem_map.mp hwritten
  exact h w hw

theorem Consecutive.submit {s : Stream β} (h : Consecutive s) (new : List (List β)) :
    Consecutive (s.submit new) := by
  have hfresh : ∀ w ∈ new.map fun rest => ({ rest } : Write β), w.written = [] := by
    intro w hw
    obtain ⟨rest, -, rfl⟩ := List.mem_map.mp hw
    rfl
  constructor
  · change s.bytes = _
    rw [Stream.submit, List.map_append, List.flatten_append, h.bytes]
    rw [flatten_unwritten hfresh, List.append_nil]
  · apply List.pairwise_append.mpr
    refine ⟨h.order, ?_, fun w _ v hv => .inr (hfresh v hv)⟩
    exact List.pairwise_of_forall_mem_list fun w _ v hv => .inr (hfresh v hv)

theorem Consecutive.transmit {s t : Stream β} {i n : ℕ} {w : Write β} (h : Consecutive s)
    (ht : Transmitted s i n t w) (hturn : s.InTurn i) : Consecutive t := by
  obtain ⟨hs, ht'⟩ := ht.split
  have horder := h.order
  have hbytes := h.bytes
  rw [hs] at horder hbytes
  obtain ⟨hbefore, hrest, -⟩ := List.pairwise_append.mp horder
  obtain ⟨hafter, hlater⟩ := List.pairwise_cons.mp hrest
  have hunwritten : ∀ v ∈ s.writes.drop (i + 1), v.written = [] := fun v hv =>
    (hafter v hv).resolve_left ht.rest
  constructor
  · have hchunk : t.bytes = s.bytes ++ w.rest.take n := by
      rw [Stream.bytes, ht.trace, List.map_append, List.map_map]
      exact congrArg _ (List.map_id _)
    rw [hchunk, hbytes, ht']
    simp only [List.map_append, List.map_cons, List.flatten_append, List.flatten_cons,
      flatten_unwritten hunwritten, List.append_nil, List.append_assoc, Write.advance]
  · rw [ht']
    apply List.pairwise_append.mpr
    refine ⟨hbefore, List.pairwise_cons.mpr ⟨fun v hv => .inr (hunwritten v hv), hlater⟩, ?_⟩
    exact fun v hv _ _ => .inl (hturn v hv)

theorem written_isPrefix {writes : List (Write β)}
    (h : writes.Pairwise fun w v => w.rest = [] ∨ v.written = []) :
    (writes.map (·.written)).flatten <+: (writes.map (·.buffer)).flatten := by
  induction writes with
  | nil => exact List.prefix_rfl
  | cons w writes ih =>
    obtain ⟨hw, hwrites⟩ := List.pairwise_cons.mp h
    rw [List.map_cons, List.map_cons, List.flatten_cons, List.flatten_cons]
    cases hrest : w.rest with
    | nil =>
      rw [Write.buffer, hrest, List.append_nil]
      exact List.prefix_append_right_inj _ |>.mpr (ih hwrites)
    | cons byte rest =>
      have hunwritten : ∀ v ∈ writes, v.written = [] := fun v hv =>
        (hw v hv).resolve_left (by simp [hrest])
      rw [flatten_unwritten hunwritten, List.append_nil, Write.buffer, List.append_assoc]
      exact List.prefix_append _ _

/-- What was transmitted one after the other is a prefix of what was submitted. -/
theorem Consecutive.isPrefix {s : Stream β} (h : Consecutive s) : s.bytes <+: s.buffers.flatten := by
  rw [h.bytes]
  exact written_isPrefix h.order

end Stream
end Mqtt5.OutstandingWrites
