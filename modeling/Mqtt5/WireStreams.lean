import Mqtt5.WireVarlen

/-!
# Streams of any bytes

What readers make of bytes that nobody has checked. A stream begins with a header, or is
the beginning of one, or cannot begin with one; which of the three it is, and with it all
that the readers yield, is in the bytes and not in how they were cut into chunks.
-/
namespace Mqtt5.WireStreams
open ByteParser WirePrimitives WireHeader WireControlPacket ChunkedInput WireFraming WireVarlen

/-! ## How a stream begins -/

/-- Four bytes of a length, each of which says that another follows. -/
def Unending (bytes : Bytes) : Prop :=
  ∃ t cs tail, bytes = t :: cs ++ tail ∧ cs.length = 4 ∧ ∀ c ∈ cs, 128 ≤ c.toNat

inductive Beginning (bytes : Bytes) : Prop
  | starved (enc left : Bytes) (header : Header) (hw : HeaderWord enc header) (hne : left ≠ [])
      (h : enc = bytes ++ left)
  | header (enc tail : Bytes) (header : Header) (hw : HeaderWord enc header)
      (h : bytes = enc ++ tail)
  | unending (h : Unending bytes)

/-- The four bytes of a length count less than a 32-bit number can. -/
theorem headerWord_of_word (t : UInt8) {enc : Bytes} {n : ℕ} (hw : Base128.Word enc n)
    (hlen : enc.length ≤ 4) : HeaderWord (t :: enc) ⟨t, UInt32.ofNat n⟩ := by
  have hlt := hw.lt
  have hpow : 128 ^ enc.length ≤ 128 ^ 4 := Nat.pow_le_pow_right (by decide) hlen
  have hnat : (UInt32.ofNat n).toNat = n := by
    rw [UInt32.toNat_ofNat']
    norm_num at hpow ⊢
    omega
  exact ⟨enc, rfl, hnat.symm ▸ hw, hlen⟩

/-- Bytes that all say that another follows become a number with a last byte. -/
theorem word_of_continued {cs : Bytes} (hall : ∀ c ∈ cs, 128 ≤ c.toNat) :
    ∃ n, Base128.Word (cs ++ [0]) n := by
  induction cs with
  | nil => exact ⟨_, .last (b := 0) (by decide)⟩
  | cons c cs ih =>
    obtain ⟨n, hn⟩ := ih fun d hd => hall d (List.mem_cons_of_mem _ hd)
    exact ⟨_, .more (hall c List.mem_cons_self) hn⟩

theorem beginning (bytes : Bytes) : Beginning bytes := by
  cases bytes with
  | nil =>
    have hword : Base128.Word [0] 0 := .last (b := 0) (by decide)
    exact .starved [0, 0] [0, 0] _ (headerWord_of_word 0 hword (by decide)) (by simp) rfl
  | cons t d =>
    obtain ⟨enc, rest, n, rfl, hw, hlen⟩ | ⟨hlen, hall⟩ | ⟨cs, b, rest, rfl, hlen, hall⟩ :=
      span_cases d
    · exact .header (t :: enc) rest _ (headerWord_of_word t hw hlen) rfl
    · by_cases hfour : d.length = 4
      · exact .unending ⟨t, d, [], by simp, hfour, hall⟩
      · obtain ⟨n, hn⟩ := word_of_continued hall
        have hshort : (d ++ [0]).length ≤ 4 := by
          rw [List.length_append, List.length_singleton]
          omega
        exact .starved (t :: (d ++ [0])) [0] _ (headerWord_of_word t hn hshort) (by simp) rfl
    · exact .unending ⟨t, cs, b :: rest, rfl, hlen, hall⟩

/-! ## What a reader does with it -/

/-- The second stage waits for the body that the header announces, and then decodes it. -/
theorem readBody_cases (header : Header) (input : Input UInt8) :
    (input.rest.length < header.remainingLength.toNat ∧
      readBody header input = .waiting (some header) input.rest) ∨
    (header.remainingLength.toNat ≤ input.rest.length ∧ ∃ left : Input UInt8,
      left.rest = input.rest.drop header.remainingLength.toNat ∧ readBody header input =
        match ControlPacket.decodeBody header (input.rest.take header.remainingLength.toNat) with
        | .error e => .failed e
        | .ok p => .packet p left) := by
  set n := header.remainingLength.toNat with hn
  by_cases hshort : input.rest.length < n
  · exact .inl ⟨hshort, readBody_waiting hshort⟩
  · have hzero : ∀ buffer : Bytes, (dataPredicate n buffer == 0) = true ↔ n ≤ buffer.length := by
      intro buffer
      rw [beq_iff_eq, dataPredicate]
      split <;> omega
    obtain ⟨filled, hf, he, hr⟩ := exists_fill (fun buffer => dataPredicate n buffer == 0)
      (i := input) ((hzero _).mpr (by omega))
    have hlen := (hzero _).mp he
    refine .inr ⟨by omega, { filled with buffer := filled.buffer.drop n }, ?_, ?_⟩
    · rw [← hr, Input.rest, Input.rest, List.drop_append_of_le_length hlen]
    · have htake : input.rest.take n = filled.buffer.take n := by
        rw [← hr, Input.rest, List.take_append_of_le_length hlen]
      cases hdec : ControlPacket.decodeBody header (input.rest.take n) <;>
        simp only [readBody, ← hn, hf, ← htake, hdec]

/-- A length that does not end within four bytes is no part of a header. -/
theorem Unending.not_header {bytes enc tail : Bytes} {header : Header} (h : Unending bytes)
    (hw : HeaderWord enc header) : bytes ≠ enc ++ tail := by
  intro hsplit
  obtain ⟨t, cs, after, rfl, hlen, hall⟩ := h
  obtain ⟨lengthEnc, rfl, hword, hshort⟩ := hw
  have hsame : lengthEnc ++ tail = cs ++ after := (List.cons.inj hsplit).2.symm
  have hprefix : lengthEnc <+: cs :=
    List.prefix_of_prefix_length_le ⟨tail, hsame⟩ (List.prefix_append cs after) (by omega)
  obtain ⟨b, hb, hlt⟩ := hword.exists_last
  have hge := hall b (List.IsPrefix.subset hprefix hb)
  omega

/-- It is refused, however much of the stream has been read. -/
theorem controlPacketReader_unending {input : Input UInt8} (h : Unending input.rest) :
    ∃ e, controlPacketReader input = .failed e := by
  have henough : headerPredicate input.rest = 0 := by
    obtain ⟨t, cs, tail, hrest, hlen, -⟩ := h
    have hcan : canDeserialize (cs ++ tail) = true :=
      (canDeserialize_iff _).mpr (.inl (by rw [List.length_append]; omega))
    have hne : cs ++ tail ≠ [] := by
      intro hnil
      rw [(List.append_eq_nil_iff.mp hnil).1] at hlen
      cases hlen
    rw [hrest, List.cons_append, headerPredicate_cons t hne, if_pos hcan]
  obtain ⟨filled, hf, -, hr⟩ := exists_fill
    (fun buffer => headerPredicate buffer == 0) (i := input) (by simpa using henough)
  cases hdec : Header.deserialize.run filled.buffer with
  | ok r =>
    obtain ⟨enc, henc, hw⟩ := (Header.deserialize_parses filled.buffer r.1 r.2).mp hdec
    have hsplit : input.rest = enc ++ (r.2 ++ filled.chunks.flatten) := by
      rw [← hr, Input.rest, henc, List.append_assoc]
    exact absurd hsplit (h.not_header hw)
  | error e => exact ⟨e, by simp only [controlPacketReader, hf, hdec]⟩

/-- The same end of a reader, but for the chunks that are left and the reason of a failure. -/
inductive Same : Outcome → Outcome → Prop
  | packet (p : ControlPacket) {left left' : Input UInt8} (h : left.rest = left'.rest) :
      Same (.packet p left) (.packet p left')
  | waiting (header : Option Header) (buffer : Bytes) :
      Same (.waiting header buffer) (.waiting header buffer)
  | failed (e e' : Fault) : Same (.failed e) (.failed e')

theorem readBody_same (header : Header) {i j : Input UInt8} (h : i.rest = j.rest) :
    Same (readBody header i) (readBody header j) := by
  obtain ⟨hi, hwait⟩ | ⟨hi, left, hleft, hread⟩ := readBody_cases header i
  · rw [hwait, readBody_waiting (h ▸ hi), h]
    exact .waiting _ _
  · obtain ⟨hj, -⟩ | ⟨-, left', hleft', hread'⟩ := readBody_cases header j
    · rw [h] at hi
      omega
    · rw [hread, hread', h]
      split
      · exact .failed _ _
      · exact .packet _ (by rw [hleft, hleft', h])

theorem controlPacketReader_same {i j : Input UInt8} (h : i.rest = j.rest) :
    Same (controlPacketReader i) (controlPacketReader j) := by
  cases beginning i.rest with
  | starved enc left header hw hne henc =>
    rw [controlPacketReader_starved hw henc hne, h]
    rw [h] at henc
    rw [controlPacketReader_starved hw henc hne]
    exact .waiting _ _
  | header enc tail header hw hrest =>
    obtain ⟨left, hread, hleft⟩ := controlPacketReader_header hw hrest
    obtain ⟨left', hread', hleft'⟩ := controlPacketReader_header hw (h ▸ hrest)
    rw [hread, hread']
    exact readBody_same header (hleft.trans hleft'.symm)
  | unending hlong =>
    obtain ⟨e, he⟩ := controlPacketReader_unending hlong
    obtain ⟨e', he'⟩ := controlPacketReader_unending (h ▸ hlong)
    rw [he, he']
    exact .failed e e'

/-! ## One reader after another -/

theorem incomplete_nil : Incomplete [] := by
  have hword : Base128.Word [0] 0 := .last (b := 0) (by decide)
  exact ⟨_, [], [0, 0], by simp, [0, 0], rfl, headerWord_of_word 0 hword (by decide), rfl⟩

/-- The first bytes of a stream of frames are some of the frames and the beginning of one. -/
theorem exists_frames {frames : List (Bytes × ControlPacket)} (hf : ∀ f ∈ frames, Frame f.1 f.2)
    {bytes : Bytes} (h : bytes <+: (frames.map (·.1)).flatten) : ∃ taken left tail,
      frames = taken ++ left ∧ bytes = (taken.map (·.1)).flatten ++ tail ∧ Incomplete tail := by
  induction frames generalizing bytes with
  | nil =>
    obtain rfl := List.prefix_nil.mp h
    exact ⟨[], [], [], rfl, rfl, incomplete_nil⟩
  | cons f frames ih =>
    obtain ⟨header, body, hword, -⟩ := hf f List.mem_cons_self
    obtain ⟨more, hmore⟩ := h
    rw [List.map_cons, List.flatten_cons] at hmore
    obtain ⟨missing, hwhole, -⟩ | ⟨part, rfl, hrest⟩ := List.append_eq_append_iff.mp hmore
    · by_cases hmissing : missing = []
      · refine ⟨[f], frames, [], rfl, ?_, incomplete_nil⟩
        simp [hwhole, hmissing]
      · exact ⟨[], f :: frames, bytes, rfl, rfl, header, body, missing, hmissing, hwhole ▸ hword⟩
    · obtain ⟨taken, left, tail, rfl, rfl, htail⟩ :=
        ih (fun g hg => hf g (List.mem_cons_of_mem _ hg)) ⟨more, hrest.symm⟩
      exact ⟨f :: taken, left, tail, rfl, by simp, htail⟩

/-- Frames of these packets, one after the other, and then the rest. -/
inductive Carries : Bytes → List ControlPacket → Bytes → Prop
  | nil (rest : Bytes) : Carries rest [] rest
  | cons {frame bytes rest : Bytes} {p : ControlPacket} {packets : List ControlPacket}
      (hf : Frame frame p) (h : Carries bytes packets rest) :
      Carries (frame ++ bytes) (p :: packets) rest

/-- Bytes that begin with no acceptable frame, whatever comes after them. -/
def Refused (bytes : Bytes) : Prop :=
  ∀ more frame p tail, Frame frame p → bytes ++ more ≠ frame ++ tail

/-- What is left of a stream where the readers come to an end. -/
def Ends (rest : Bytes) : Outcome → Prop
  | .packet _ _ => False
  | .waiting header buffer => Incomplete rest ∧ Holds (.waiting header buffer) rest
  | .failed _ => Refused rest

theorem HeaderWord.unique {enc enc' tail tail' : Bytes} {header header' : Header}
    (hw : HeaderWord enc header) (hw' : HeaderWord enc' header') (h : enc ++ tail = enc' ++ tail') :
    header = header' ∧ tail = tail' := by
  have hread := Header.deserialize_parses.decodes hw tail
  have hread' := Header.deserialize_parses.decodes hw' tail'
  rw [h, hread'] at hread
  cases hread
  exact ⟨rfl, rfl⟩

/-- A body that the decoder rejects is not saved by what follows it. -/
theorem refused_of_body {enc tail : Bytes} {header : Header} {e : Fault}
    (hw : HeaderWord enc header) (hlen : header.remainingLength.toNat ≤ tail.length)
    (he : ControlPacket.decodeBody header (tail.take header.remainingLength.toNat) = .error e) :
    Refused (enc ++ tail) := by
  rintro more _ p after ⟨header', body, ⟨enc', rfl, hw', hn⟩, hp⟩ hsame
  rw [List.append_assoc, List.append_assoc] at hsame
  obtain ⟨rfl, hbody⟩ := HeaderWord.unique hw hw' hsame
  have htake : tail.take header.remainingLength.toNat = body := by
    rw [← List.take_append_of_le_length hlen, hbody, hn, List.take_left]
  rw [htake, hp] at he
  cases he

/-- A reader takes a frame, or the readers come to an end. -/
theorem reader_ends (input : Input UInt8) :
    (∃ p frame left, Frame frame p ∧ input.rest = frame ++ left.rest ∧
      controlPacketReader input = .packet p left) ∨
    Ends input.rest (controlPacketReader input) := by
  cases beginning input.rest with
  | starved enc left header hw hne henc =>
    rw [controlPacketReader_starved hw henc hne]
    refine .inr ⟨?_, rfl⟩
    refine ⟨header, List.replicate header.remainingLength.toNat 0,
      left ++ List.replicate header.remainingLength.toNat 0, by simp [hne], enc, ?_, hw, by simp⟩
    rw [henc, List.append_assoc]
  | header enc tail header hw hrest =>
    obtain ⟨mid, hread, hmid⟩ := controlPacketReader_header hw hrest
    obtain ⟨hshort, hwait⟩ | ⟨hlong, left, hleft, hbody⟩ := readBody_cases header mid
    · rw [hread, hwait, hmid, hrest]
      rw [hmid] at hshort
      refine .inr ⟨?_, enc, hw, rfl⟩
      refine ⟨header, tail ++ List.replicate (header.remainingLength.toNat - tail.length) 0,
        List.replicate (header.remainingLength.toNat - tail.length) 0, ?_, enc, ?_, hw, ?_⟩
      · rw [Ne, List.replicate_eq_nil_iff]
        omega
      · rw [List.append_assoc]
      · rw [List.length_append, List.length_replicate]
        omega
    · rw [hmid] at hlong hleft hbody
      rw [hread, hbody]
      cases hdec : ControlPacket.decodeBody header (tail.take header.remainingLength.toNat) with
      | error e =>
        rw [hrest]
        exact .inr (refused_of_body hw hlong hdec)
      | ok p =>
        have hcount : header.remainingLength.toNat =
            (tail.take header.remainingLength.toNat).length := by
          rw [List.length_take]
          omega
        refine .inl ⟨p, _, left, ⟨header, _, ⟨enc, rfl, hw, hcount⟩, hdec⟩, ?_, rfl⟩
        rw [hleft, List.append_assoc, List.take_append_drop, hrest]
  | unending hlong =>
    obtain ⟨e, he⟩ := controlPacketReader_unending hlong
    rw [he]
    refine .inr ?_
    rintro more _ p after ⟨header, body, ⟨enc, rfl, hw, -⟩, -⟩ hsame
    obtain ⟨t, cs, tail, hrest, hlen, hall⟩ := hlong
    have hmore : Unending (input.rest ++ more) :=
      ⟨t, cs, tail ++ more, by rw [hrest, List.append_assoc], hlen, hall⟩
    rw [List.append_assoc] at hsame
    exact hmore.not_header hw hsame

theorem Carries.more {bytes rest : Bytes} {packets : List ControlPacket}
    (h : Carries bytes packets rest) (chunk : Bytes) :
    Carries (bytes ++ chunk) packets (rest ++ chunk) := by
  induction h with
  | nil rest => exact .nil _
  | cons hf _ ih =>
    rw [List.append_assoc]
    exact .cons hf ih

theorem Carries.trans {bytes mid rest : Bytes} {packets others : List ControlPacket}
    (h : Carries bytes packets mid) (hothers : Carries mid others rest) :
    Carries bytes (packets ++ others) rest := by
  induction h with
  | nil => exact hothers
  | cons hf _ ih => exact .cons hf (ih hothers)

theorem controlPacketReader_took {input left : Input UInt8} {p : ControlPacket}
    (h : controlPacketReader input = .packet p left) :
    Carries input.rest [p] left.rest := by
  obtain ⟨q, frame, after, hf, hrest, hread⟩ | hends := reader_ends input
  · rw [h] at hread
    cases hread
    rw [hrest]
    exact .cons hf (.nil _)
  · rw [h] at hends
    exact hends.elim

/-- Two frames at the front of one stream are of the same packet and end at the same place. -/
theorem Frame.unique {frame frame' tail tail' : Bytes} {p p' : ControlPacket} (hf : Frame frame p)
    (hf' : Frame frame' p') (h : frame ++ tail = frame' ++ tail') : p = p' ∧ tail = tail' := by
  have hrest : (⟨frame ++ tail, []⟩ : Input UInt8).rest = frame ++ tail := List.append_nil _
  obtain ⟨left, hread, hleft⟩ := controlPacketReader_packet hf hrest
  obtain ⟨left', hread', hleft'⟩ := controlPacketReader_packet hf' (hrest.trans h)
  rw [hread] at hread'
  cases hread'
  exact ⟨rfl, hleft.symm.trans hleft'⟩

theorem Ends.no_frame {rest frame tail : Bytes} {outcome : Outcome} (h : Ends rest outcome)
    {p : ControlPacket} (hf : Frame frame p) : rest ≠ frame ++ tail := by
  intro hsplit
  cases outcome with
  | packet => exact h
  | waiting header buffer =>
    have hrest : (⟨rest, []⟩ : Input UInt8).rest = rest := List.append_nil _
    obtain ⟨left, hread, -⟩ := controlPacketReader_packet hf (hrest.trans hsplit)
    obtain ⟨⟨header, buffer, hwait⟩, -⟩ := controlPacketReader_incomplete (hrest ▸ h.1)
    rw [hread] at hwait
    cases hwait
  | failed e => exact h [] frame p tail hf (by rw [List.append_nil, hsplit])

/-- Where the readers come to an end, no further frame can be cut off the stream. -/
theorem Carries.longest {bytes rest left : Bytes} {packets others : List ControlPacket}
    {outcome : Outcome} (h : Carries bytes packets rest) (hends : Ends rest outcome)
    (hothers : Carries bytes others left) : others <+: packets := by
  induction h generalizing others with
  | nil rest =>
    cases hothers with
    | nil => exact List.prefix_rfl
    | cons hf => exact absurd rfl (hends.no_frame hf)
  | @cons frame bytes rest p packets hf h ih =>
    generalize hall : frame ++ bytes = all at hothers
    cases hothers with
    | nil => exact List.nil_prefix
    | cons hf' hothers =>
      obtain ⟨rfl, rfl⟩ := Frame.unique hf hf' hall
      exact List.cons_prefix_cons.mpr ⟨rfl, ih hends hothers⟩

theorem Frame.two_le_length {frame : Bytes} {p : ControlPacket} (h : Frame frame p) :
    2 ≤ frame.length := by
  obtain ⟨header, body, ⟨_, rfl, ⟨lengthEnc, rfl, hword, -⟩, -⟩, -⟩ := h
  have hpos := List.length_pos_iff.mpr hword.ne_nil
  rw [List.length_append, List.length_cons]
  omega

/-- How a stream is read, by its bytes: there are packets and an end that all ways of cutting
it lead to. -/
theorem exists_reading (n : ℕ) {bytes : Bytes} (hn : bytes.length ≤ n) :
    ∃ packets rest ending, Carries bytes packets rest ∧ Ends rest ending ∧
      ∀ input : Input UInt8, input.rest = bytes → ∀ readers, bytes.length / 2 < readers →
        ∃ outcome, readAll readers input = some (packets, outcome) ∧ Same ending outcome := by
  induction n using Nat.strongRecOn generalizing bytes with
  | ind n ih =>
    have hwhole : (⟨bytes, []⟩ : Input UInt8).rest = bytes := List.append_nil _
    obtain ⟨p, frame, left, hf, hsplit, hread⟩ | hends := reader_ends ⟨bytes, []⟩
    · have htwo := Frame.two_le_length hf
      rw [hwhole] at hsplit
      have hlength : bytes.length = frame.length + left.rest.length := by
        rw [hsplit, List.length_append]
      obtain ⟨packets, rest, ending, hcarries, hends, hall⟩ :=
        ih left.rest.length (by omega) (Nat.le_refl _)
      refine ⟨p :: packets, rest, ending, hsplit ▸ hcarries.cons hf, hends, ?_⟩
      intro input hinput readers hreaders
      obtain ⟨k, rfl⟩ : ∃ k, readers = k + 1 := ⟨readers - 1, by omega⟩
      have hsame := controlPacketReader_same (hwhole.trans hinput.symm)
      rw [hread] at hsame
      generalize hfirst : controlPacketReader input = first at hsame
      cases hsame with
      | @packet _ _ left' hleft =>
        obtain ⟨outcome, hrest, hending⟩ := hall left' hleft.symm k (by omega)
        exact ⟨outcome, by rw [readAll, hfirst]; simp only [hrest]; rfl, hending⟩
    · rw [hwhole] at hends
      refine ⟨[], bytes, _, .nil bytes, hends, ?_⟩
      intro input hinput readers hreaders
      obtain ⟨k, rfl⟩ : ∃ k, readers = k + 1 := ⟨readers - 1, by omega⟩
      have hsame := controlPacketReader_same (hwhole.trans hinput.symm)
      refine ⟨controlPacketReader input, ?_, hsame⟩
      generalize controlPacketReader ⟨bytes, []⟩ = ending at hends hsame
      rw [readAll]
      generalize controlPacketReader input = outcome at hsame
      cases hsame with
      | packet => exact hends.elim
      | waiting | failed => rfl

/-- Readers of any bytes come to an end, after the same packets and at the same place whatever
the chunks: no more packets can be cut off the stream, and it ends inside a frame, or with
bytes that no others could make acceptable. -/
theorem any_stream (bytes : Bytes) : ∃ packets rest ending,
    Carries bytes packets rest ∧ Ends rest ending ∧
    (∀ others left, Carries bytes others left → others <+: packets) ∧
    ∀ chunks : List Bytes, chunks.flatten = bytes → ∀ readers, bytes.length / 2 < readers →
      ∃ outcome, readAll readers ⟨[], chunks⟩ = some (packets, outcome) ∧ Same ending outcome := by
  obtain ⟨packets, rest, ending, hcarries, hends, hall⟩ := exists_reading _ (Nat.le_refl bytes.length)
  refine ⟨packets, rest, ending, hcarries, hends, ?_, ?_⟩
  · intro others left hothers
    exact hcarries.longest hends hothers
  · intro chunks hchunks
    exact hall ⟨[], chunks⟩ hchunks

end Mqtt5.WireStreams
