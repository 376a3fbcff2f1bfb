import Mqtt5.ChunkedInput
import Mqtt5.WireControlPacket

/-!
# Framing

`control_packet_reader` over a stream that hands out its bytes in chunks: fill the
buffer until it holds a header, then until it holds the body that the header announces.
What follows a packet stays in the buffer for the next reader.
-/
namespace Mqtt5.WireFraming
open ByteParser WirePrimitives WireHeader WireControlPacket ChunkedInput

/-- The predicate of `header::inplace_deserializer`: how many bytes are missing. -/
def headerPredicate (buffer : Bytes) : ℕ :=
  if buffer.length < 2 then 2 - buffer.length
  else if canDeserialize buffer.tail then 0
  else 1

/-- The predicate of `data_fetcher::get_data`. -/
def dataPredicate (bytesRequested : ℕ) (buffer : Bytes) : ℕ :=
  if buffer.length < bytesRequested then bytesRequested - buffer.length else 0

/-- How a reader ends; a reader that waits has kept the header, when it has read one. -/
inductive Outcome
  | packet (p : ControlPacket) (left : Input UInt8)
  | waiting (header : Option Header) (buffer : Bytes)
  | failed (e : Fault)
  deriving DecidableEq, Repr

/-- The second stage of `control_packet::inplace_deserializer`. -/
def readBody (header : Header) (input : Input UInt8) : Outcome :=
  match fill (fun buffer => dataPredicate header.remainingLength.toNat buffer == 0) input with
  | .error buffer => .waiting (some header) buffer
  | .ok input =>
      match ControlPacket.decodeBody header (input.buffer.take header.remainingLength.toNat) with
      | .error e => .failed e
      | .ok p => .packet p { input with buffer := input.buffer.drop header.remainingLength.toNat }

/-- `connection::control_packet_reader` -/
def controlPacketReader (input : Input UInt8) : Outcome :=
  match fill (fun buffer => headerPredicate buffer == 0) input with
  | .error buffer => .waiting none buffer
  | .ok input =>
      match Header.deserialize.run input.buffer with
      | .error e => .failed e
      | .ok (header, buffer) => readBody header { input with buffer }

/-- One reader after another, at most `readers` of them, until one yields no packet. -/
def readAll : ℕ → Input UInt8 → Option (List ControlPacket × Outcome)
  | 0, _ => none
  | readers + 1, input =>
      match controlPacketReader input with
      | .packet p left => (readAll readers left).map fun r => (p :: r.1, r.2)
      | outcome => some ([], outcome)

/-! ## Frames -/

/-- The words of a header. -/
def HeaderWord (enc : Bytes) (header : Header) : Prop :=
  ∃ lengthEnc, enc = header.typeFlags :: lengthEnc ∧
    Base128.Word lengthEnc header.remainingLength.toNat ∧ lengthEnc.length ≤ 4

/-- A header and as many bytes as it announces. -/
def FrameWord (header : Header) (body frame : Bytes) : Prop :=
  ∃ enc, frame = enc ++ body ∧ HeaderWord enc header ∧ header.remainingLength.toNat = body.length

/-- A frame whose body the dispatcher accepts. -/
def Frame (frame : Bytes) (p : ControlPacket) : Prop :=
  ∃ header body, FrameWord header body frame ∧ ControlPacket.decodeBody header body = .ok p

/-- The beginning of a frame, without its end. -/
def Incomplete (bytes : Bytes) : Prop :=
  ∃ header body missing, missing ≠ [] ∧ FrameWord header body (bytes ++ missing)

/-- A reader that waits holds `bytes`: in the buffer, or in the buffer and its header. -/
def Holds (outcome : Outcome) (bytes : Bytes) : Prop :=
  match outcome with
  | .waiting none buffer => bytes = buffer
  | .waiting (some header) buffer => ∃ enc, HeaderWord enc header ∧ bytes = enc ++ buffer
  | _ => False

theorem canDeserialize_iff (data : Bytes) :
    canDeserialize data = true ↔ 4 ≤ data.length ∨ ∃ b ∈ data, b.toNat < 128 := by
  have hbit : ∀ b : UInt8, (b &&& 128 == 0) = true ↔ b.toNat < 128 := by
    intro b
    have := continuation_iff b
    rw [beq_iff_eq]
    constructor
    · intro h
      by_contra hb
      exact this.mpr (by omega) h
    · intro h
      by_contra hb
      have := this.mp hb
      omega
  simp only [canDeserialize, Bool.or_eq_true, decide_eq_true_eq, List.any_eq_true, hbit]

/-- The predicate holds back the reader exactly until the header is complete. -/
theorem headerPredicate_eq_zero_iff {enc buffer more tail : Bytes} {header : Header}
    (hw : HeaderWord enc header) (h : buffer ++ more = enc ++ tail) :
    headerPredicate buffer = 0 ↔ ∃ left, buffer = enc ++ left := by
  obtain ⟨lengthEnc, rfl, hword, hlen⟩ := hw
  have hpos := List.length_pos_iff.mpr hword.ne_nil
  constructor
  · intro hp
    rw [headerPredicate] at hp
    split_ifs at hp with hshort hcan
    · omega
    · rcases List.append_eq_append_iff.mp h with ⟨left, he, -⟩ | ⟨left, hb, -⟩
      · obtain ⟨t, bs, rfl⟩ : ∃ t bs, buffer = t :: bs :=
          List.exists_cons_of_ne_nil (by rintro rfl; simp at hshort)
        simp only [List.cons_append, List.cons.injEq] at he
        by_contra hleft
        have hne : left ≠ [] := by
          rintro rfl
          exact hleft ⟨[], by simp [he.1, he.2]⟩
        rcases (canDeserialize_iff _).mp hcan with h4 | ⟨b, hb, hlt⟩
        · have := congrArg List.length he.2
          have := List.length_pos_iff.mpr hne
          simp only [List.length_append, List.tail_cons] at *
          omega
        · have := hword.proper_prefix he.2 hne b hb
          omega
      · exact ⟨left, hb⟩
  · rintro ⟨left, rfl⟩
    obtain ⟨b, hb, hlt⟩ := hword.exists_last
    have hcan : canDeserialize (lengthEnc ++ left) = true :=
      (canDeserialize_iff _).mpr (.inr ⟨b, by simp [hb], hlt⟩)
    have hlong : ¬ (header.typeFlags :: lengthEnc ++ left).length < 2 := by
      rw [List.length_append, List.length_cons]
      omega
    rw [headerPredicate, if_neg hlong, List.cons_append, List.tail_cons, if_pos hcan]

/-- Once the stream holds a header, the reader goes on to the body. -/
theorem controlPacketReader_header {input : Input UInt8} {enc tail : Bytes} {header : Header}
    (hw : HeaderWord enc header) (hi : input.rest = enc ++ tail) :
    ∃ left, controlPacketReader input = readBody header left ∧ left.rest = tail := by
  have hall : input.rest ++ [] = enc ++ tail := by rw [List.append_nil, hi]
  have henough : headerPredicate input.rest = 0 :=
    (headerPredicate_eq_zero_iff hw hall).mpr ⟨tail, hi⟩
  obtain ⟨filled, hf, hp, hr⟩ := exists_fill
    (fun buffer => headerPredicate buffer == 0) (i := input) (by simpa using henough)
  obtain ⟨left, hb⟩ := (headerPredicate_eq_zero_iff hw (hr.trans hi)).mp (by simpa using hp)
  refine ⟨⟨left, filled.chunks⟩, ?_, ?_⟩
  · have hrun := Header.deserialize_parses.decodes hw left
    simp only [controlPacketReader, hf, hb, hrun]
  · have : enc ++ (left ++ filled.chunks.flatten) = enc ++ tail := by
      rw [← List.append_assoc, ← hb, ← hi, ← hr]
      rfl
    exact List.append_cancel_left this

theorem readBody_packet {header : Header} {input : Input UInt8} {body tail : Bytes}
    {p : ControlPacket} (hn : header.remainingLength.toNat = body.length)
    (hp : ControlPacket.decodeBody header body = .ok p) (hi : input.rest = body ++ tail) :
    ∃ left, readBody header input = .packet p left ∧ left.rest = tail := by
  have hzero : ∀ buffer : Bytes, (dataPredicate body.length buffer == 0) = true ↔
      body.length ≤ buffer.length := by
    intro buffer
    rw [beq_iff_eq, dataPredicate]
    split <;> omega
  obtain ⟨filled, hf, he, hr⟩ := exists_fill
    (fun buffer => dataPredicate body.length buffer == 0) (i := input)
    ((hzero _).mpr (by rw [hi]; simp))
  have hlen := (hzero _).mp he
  have hsplit : filled.buffer ++ filled.chunks.flatten = body ++ tail := hr.trans hi
  have htake : filled.buffer.take body.length = body := by
    rw [← List.take_append_of_le_length hlen, hsplit, List.take_left]
  refine ⟨⟨filled.buffer.drop body.length, filled.chunks⟩, ?_, ?_⟩
  · simp only [readBody, hn, hf, htake, hp]
  · rw [Input.rest, ← List.drop_append_of_le_length hlen, hsplit, List.drop_left]

theorem readBody_waiting {header : Header} {input : Input UInt8}
    (h : input.rest.length < header.remainingLength.toNat) :
    readBody header input = .waiting (some header) input.rest := by
  rw [readBody, fill_starved]
  intro xs ys he
  have hlen := congrArg List.length he
  rw [List.length_append] at hlen
  rw [dataPredicate, if_pos (by omega)]
  simp
  omega

/-- One reader takes one frame, and leaves what follows it. -/
theorem controlPacketReader_packet {input : Input UInt8} {frame tail : Bytes} {p : ControlPacket}
    (hf : Frame frame p) (hi : input.rest = frame ++ tail) :
    ∃ left, controlPacketReader input = .packet p left ∧ left.rest = tail := by
  obtain ⟨header, body, ⟨enc, rfl, hw, hn⟩, hp⟩ := hf
  rw [List.append_assoc] at hi
  obtain ⟨mid, hmid, hrest⟩ := controlPacketReader_header hw hi
  rw [hmid]
  exact readBody_packet hn hp hrest

theorem controlPacketReader_starved {input : Input UInt8} {enc left : Bytes} {header : Header}
    (hw : HeaderWord enc header) (he : enc = input.rest ++ left) (hne : left ≠ []) :
    controlPacketReader input = .waiting none input.rest := by
  rw [controlPacketReader, fill_starved]
  intro xs ys hsplit
  by_contra hp
  have hzero : headerPredicate xs = 0 := by simpa using hp
  have hprefix : xs ++ (ys ++ left) = enc ++ [] := by
    rw [List.append_nil, ← List.append_assoc, ← hsplit, he]
  obtain ⟨l, rfl⟩ := (headerPredicate_eq_zero_iff hw hprefix).mp hzero
  have hlen := congrArg List.length he
  have hpos := List.length_pos_iff.mpr hne
  rw [hsplit] at hlen
  simp only [List.length_append] at hlen
  omega

/-- A reader that is given a part of a frame waits, and keeps what it was given. -/
theorem controlPacketReader_incomplete {input : Input UInt8} (h : Incomplete input.rest) :
    (∃ header buffer, controlPacketReader input = .waiting header buffer) ∧
      Holds (controlPacketReader input) input.rest := by
  obtain ⟨header, body, missing, hne, enc, he, hw, hn⟩ := h
  have hcases : (∃ part, input.rest = enc ++ part ∧ body = part ++ missing) ∨
      ∃ left, left ≠ [] ∧ enc = input.rest ++ left := by
    rcases List.append_eq_append_iff.mp he with ⟨left, henc, hm⟩ | ⟨part, hpart, hbody⟩
    · by_cases hl : left = []
      · exact .inl ⟨[], by simp [henc, hl], by simp [hm, hl]⟩
      · exact .inr ⟨left, hl, henc⟩
    · exact .inl ⟨part, hpart, hbody⟩
  rcases hcases with ⟨part, hpart, hbody⟩ | ⟨left, hl, henc⟩
  · have hmiss := List.length_pos_iff.mpr hne
    obtain ⟨mid, hmid, hrest⟩ := controlPacketReader_header hw hpart
    have hlen := congrArg List.length hbody
    rw [List.length_append] at hlen
    rw [hmid, readBody_waiting (by rw [hrest]; omega), hrest]
    exact ⟨⟨_, _, rfl⟩, enc, hw, hpart⟩
  · rw [controlPacketReader_starved hw henc hl]
    exact ⟨⟨_, _, rfl⟩, rfl⟩

/-- However a stream of frames is cut into chunks, one reader after another yields the
packet of one frame after another; the last reader waits with the incomplete rest. -/
theorem readAll_frames {frames : List (Bytes × ControlPacket)} {tail : Bytes}
    (hf : ∀ f ∈ frames, Frame f.1 f.2) (ht : Incomplete tail) {input : Input UInt8}
    (hi : input.rest = (frames.map (·.1)).flatten ++ tail) {readers : ℕ}
    (hr : frames.length < readers) :
    ∃ outcome, readAll readers input = some (frames.map (·.2), outcome) ∧ Holds outcome tail := by
  induction frames generalizing input readers with
  | nil =>
    obtain ⟨k, rfl⟩ : ∃ k, readers = k + 1 := ⟨readers - 1, by simp at hr; omega⟩
    obtain rfl : input.rest = tail := hi
    obtain ⟨⟨header, buffer, hw⟩, hh⟩ := controlPacketReader_incomplete ht
    exact ⟨_, by rw [readAll, hw]; rfl, hw ▸ hh⟩
  | cons f frames ih =>
    obtain ⟨k, rfl⟩ : ∃ k, readers = k + 1 := ⟨readers - 1, by simp at hr; omega⟩
    rw [List.map_cons, List.flatten_cons, List.append_assoc] at hi
    obtain ⟨left, hp, hrest⟩ := controlPacketReader_packet (hf f (by simp)) hi
    obtain ⟨outcome, hall, hh⟩ := ih (fun g hg => hf g (by simp [hg])) hrest
      (show frames.length < k by simpa using hr)
    exact ⟨outcome, by rw [readAll, hp]; simp only [hall]; rfl, hh⟩

/-- The packet of a frame is what the decoder makes of the frame alone. -/
theorem Frame.deserialize {frame : Bytes} {p : ControlPacket} (h : Frame frame p) :
    ControlPacket.deserialize.run frame = .ok (p, []) := by
  obtain ⟨header, body, ⟨enc, rfl, hw, hn⟩, hp⟩ := h
  rw [ControlPacket.deserialize, (Header.deserialize_parses.decodes hw).bind_run, hn]
  rw [run_bind_of_ok (a := body) (m := body) (by rw [run_cspanN]; simp)]
  rw [run_bind_of_ok (a := p) (m := body) (by rw [hp]; rfl), run_bind_of_ok (run_consume _ _)]
  rw [List.drop_length]
  rfl

theorem holds_nil {outcome : Outcome} (h : Holds outcome []) : outcome = .waiting none [] := by
  cases outcome with
  | waiting header buffer =>
    cases header with
    | none => exact congrArg _ h.symm
    | some header =>
      obtain ⟨enc, ⟨lengthEnc, rfl, -⟩, he⟩ := h
      cases he
  | _ => cases h

/-- Framing does not depend on chunking, whatever the sizes of the chunks. -/
theorem framing_of_chunks {frames : List (Bytes × ControlPacket)} {tail : Bytes}
    (hf : ∀ f ∈ frames, Frame f.1 f.2) (ht : Incomplete tail) {chunks : List Bytes}
    (hc : chunks.flatten = (frames.map (·.1)).flatten ++ tail) {readers : ℕ}
    (hr : frames.length < readers) :
    ∃ outcome, readAll readers ⟨[], chunks⟩ = some (frames.map (·.2), outcome) ∧
      Holds outcome tail ∧ (tail = [] → outcome = .waiting none []) ∧
      ∀ f ∈ frames, ControlPacket.deserialize.run f.1 = .ok (f.2, []) := by
  obtain ⟨outcome, hall, hh⟩ := @readAll_frames frames tail hf ht ⟨[], chunks⟩ hc readers hr
  refine ⟨outcome, hall, hh, ?_, fun f hmem => (hf f hmem).deserialize⟩
  rintro rfl
  exact holds_nil hh

/-- A PINGREQ, a PUBLISH that is cut inside its header and inside its body, and a PUBACK without
its last byte. -/
theorem framing_of_split_publish : ∃ outcome,
    readAll 3 ⟨[], [[0xC0, 0, 0x30], [4, 0, 1], [97], [0, 0x40, 2, 0]]⟩ =
      some ([.pingreq, .publish { topic := [97] }], outcome) ∧ Holds outcome [0x40, 2, 0] := by
  have hshort : ∀ t l : UInt8, l.toNat < 128 → HeaderWord [t, l] ⟨t, l.toUInt32⟩ := fun t l hl =>
    ⟨[l], rfl, Base128.Word.last hl, Nat.le_of_ble_eq_true rfl⟩
  have hping : Frame [0xC0, 0] .pingreq :=
    ⟨⟨0xC0, 0⟩, [], ⟨_, rfl, hshort 0xC0 0 (by decide), rfl⟩, rfl⟩
  have hpublish : Frame [0x30, 4, 0, 1, 97, 0] (.publish { topic := [97] }) :=
    ⟨⟨0x30, 4⟩, [0, 1, 97, 0], ⟨_, rfl, hshort 0x30 4 (by decide), rfl⟩, by decide⟩
  have htail : Incomplete [0x40, 2, 0] :=
    ⟨⟨0x40, 2⟩, [0, 1], [1], by simp, _, rfl, hshort 0x40 2 (by decide), rfl⟩
  have hframes : ∀ f ∈ [([0xC0, 0], .pingreq),
      ([0x30, 4, 0, 1, 97, 0], ControlPacket.publish { topic := [97] })], Frame f.1 f.2 := by
    simp [hping, hpublish]
  have hstream : List.flatten [[0xC0, 0, 0x30], [4, 0, 1], [97], [0, 0x40, 2, 0]] =
      [0xC0, 0, 0x30, 4, 0, 1, 97, 0] ++ [(0x40 : UInt8), 2, 0] := rfl
  obtain ⟨outcome, hall, hh, -⟩ := framing_of_chunks hframes htail hstream (Nat.lt_succ_self 2)
  exact ⟨outcome, hall, hh⟩

end Mqtt5.WireFraming
