import Ferrosa.Cql.Frame
import Ferrosa.Lib.IncrementalDecoder

/-!
# Frames from a byte stream

What `CqlCodec::decode` does with the bytes that have arrived: it fails whatever comes behind
them, it waits, or it takes a unit (an envelope or a frame of protocol version 5) from their
front, independently of what comes behind the unit.  This makes it an incremental decoder.  A
frame that is only a slice of an envelope makes it return no frame although the next slices may
have arrived.
-/

namespace Ferrosa.Cql

open IncrementalDecoder List
open DrainsDry hiding feed

variable {compressed : Bool}

theorem segmentHeader_append {front : Bytes}
    (long : segmentHeaderSize compressed + 3 ≤ front.length) (more : Bytes) :
    segmentHeader compressed (front ++ more) = segmentHeader compressed front := by
  have headerLong : segmentHeaderSize compressed ≤ front.length := by omega
  have checksumLong : 3 ≤ (front.drop (segmentHeaderSize compressed)).length := by
    simp only [length_drop]
    omega
  simp only [segmentHeader, length_append, take_append_of_le_length headerLong,
    drop_append_of_le_length headerLong, take_append_of_le_length checksumLong]
  rw [if_neg (by omega : ¬ front.length + more.length < _), if_neg (by omega : ¬ front.length < _)]

theorem nextSegment_append {header : SegmentHeader}
    {front payload trailer : Bytes} (frontLength : front.length = segmentHeaderSize compressed + 3)
    (payloadLength : payload.length = header.payloadLen) (trailerLength : trailer.length = 4)
    (known : segmentHeader compressed front = .ok (some header)) (more : Bytes) :
    nextSegment compressed (front ++ (payload ++ (trailer ++ more))) =
      if ofLittleEndian trailer ≠ crc32IeeeV5 payload then
        .error (.payloadChecksum (ofLittleEndian trailer) (crc32IeeeV5 payload))
      else .ok (some (⟨header, payload⟩, more)) := by
  have behindFront : (front ++ (payload ++ (trailer ++ more))).drop
      (segmentHeaderSize compressed + 3) = payload ++ (trailer ++ more) :=
    drop_left' frontLength
  have behindPayload : (front ++ (payload ++ (trailer ++ more))).drop
      (segmentHeaderSize compressed + 3 + header.payloadLen) = trailer ++ more := by
    rw [← drop_drop, behindFront]
    exact drop_left' payloadLength
  have behindTrailer : (front ++ (payload ++ (trailer ++ more))).drop
      (segmentHeaderSize compressed + 3 + header.payloadLen + 4) = more := by
    rw [← drop_drop, behindPayload]
    exact drop_left' trailerLength
  have long : ¬ (front ++ (payload ++ (trailer ++ more))).length <
      segmentHeaderSize compressed + 3 + header.payloadLen + 4 := by
    simp only [length_append]
    omega
  simp only [nextSegment, segmentHeader_append frontLength.ge, known, bind, Except.bind,
    behindFront, behindPayload, behindTrailer, take_left' payloadLength,
    take_left' trailerLength, if_neg long]

theorem nextSegment_cases (compressed : Bool) (src : Bytes) :
    (∃ error, ∀ more, nextSegment compressed (src ++ more) = .error error) ∨
      nextSegment compressed src = .ok none ∨
      ∃ header front payload trailer rest, src = front ++ (payload ++ (trailer ++ rest)) ∧
        front.length = segmentHeaderSize compressed + 3 ∧
        payload.length = header.payloadLen ∧ trailer.length = 4 ∧
        segmentHeader compressed front = .ok (some header) := by
  by_cases short : src.length < segmentHeaderSize compressed + 3
  · right; left
    simp [nextSegment, segmentHeader, short, bind, Except.bind]
  · rw [not_lt] at short
    rcases known : segmentHeader compressed src with error | _ | header
    · left
      refine ⟨error, fun more => ?_⟩
      simp [nextSegment, segmentHeader_append short, known, bind, Except.bind]
    · right; left
      simp [nextSegment, known, bind, Except.bind]
    · right
      by_cases long : src.length < segmentHeaderSize compressed + 3 + header.payloadLen + 4
      · left
        simp [nextSegment, known, bind, Except.bind, long]
      · right
        refine ⟨header, src.take (segmentHeaderSize compressed + 3),
          (src.drop (segmentHeaderSize compressed + 3)).take header.payloadLen,
          ((src.drop (segmentHeaderSize compressed + 3)).drop header.payloadLen).take 4,
          ((src.drop (segmentHeaderSize compressed + 3)).drop header.payloadLen).drop 4,
          ?_, ?_, ?_, ?_, ?_⟩
        · simp only [take_append_drop]
        · simp only [length_take]
          omega
        · simp only [length_take, length_drop]
          omega
        · simp only [length_take, length_drop]
          omega
        · have whole := @segmentHeader_append compressed
            (src.take (segmentHeaderSize compressed + 3)) (by simp only [length_take]; omega)
            (src.drop (segmentHeaderSize compressed + 3))
          rw [take_append_drop] at whole
          rw [← whole, known]

theorem nextSegment_shorter {src rest : Bytes} {segment : Segment}
    (taken : nextSegment compressed src = .ok (some (segment, rest))) :
    rest.length < src.length := by
  simp only [nextSegment, bind, Except.bind] at taken
  rcases known : segmentHeader compressed src with error | _ | header
    <;> simp only [known] at taken
  · simp at taken
  · simp at taken
  · split_ifs at taken with short mismatch <;> simp at taken
    rw [← taken.2, length_drop]
    omega

namespace CqlCodec

variable {library : Compressors} {codec : CqlCodec}

theorem envelopeHeader_append {front : Bytes} (long : headerSize ≤ front.length) (more : Bytes) :
    codec.envelopeHeader (front ++ more) = codec.envelopeHeader front := by
  simp only [envelopeHeader, length_append, take_append_of_le_length long]
  rw [if_neg (by omega), if_neg (by omega)]

theorem decodeV4Envelope_append {header : FrameHeader} {front body : Bytes}
    (frontLength : front.length = headerSize) (bodyLength : body.length = header.length.toNat)
    (known : codec.envelopeHeader front = .ok (some header)) (more : Bytes) :
    decodeV4Envelope library codec (front ++ (body ++ more)) =
      (library.envelopeBody codec.compression header body).map
        fun plain => (some ⟨header, plain⟩, codec, more) := by
  have behindFront : (front ++ (body ++ more)).drop headerSize = body ++ more :=
    drop_left' frontLength
  have behindBody : (front ++ (body ++ more)).drop (headerSize + header.length.toNat) = more := by
    rw [← drop_drop, behindFront]
    exact drop_left' bodyLength
  have long : ¬ (front ++ (body ++ more)).length < headerSize + header.length.toNat := by
    simp only [length_append]
    omega
  simp only [decodeV4Envelope, envelopeHeader_append frontLength.ge, known, bind, Except.bind,
    behindFront, behindBody, take_left' bodyLength, if_neg long]
  rcases library.envelopeBody codec.compression header body with error | plain <;> rfl

theorem decode_of_framed (idle : codec.pendingEnvelopes = []) (framed : codec.v5Framed = true)
    (src : Bytes) : decode library codec src = decodeV5Frame library codec src := by
  simp [decode, idle, framed]

def RefusesVersion (version : UInt8) : Prop := 0x06 ≤ version ∧ version ≤ 0x7F

theorem decode_of_unframed (idle : codec.pendingEnvelopes = []) (unframed : codec.v5Framed = false)
    {src : Bytes} (accepted : ¬ (headerSize ≤ src.length ∧ RefusesVersion (src.headD 0))) :
    decode library codec src = decodeV4Envelope library codec src := by
  simp only [decode, idle, unframed, Bool.false_eq_true, if_false]
  exact if_neg accepted

variable {queued : CqlCodec → ℕ}

theorem stepsOn_of_framed (library : Compressors) (idle : codec.pendingEnvelopes = [])
    (framed : codec.v5Framed = true) (src : Bytes) :
    StepsOn (decode library) queued codec src := by
  rcases nextSegment_cases codec.compression.isSome src with ⟨error, fails⟩ | waits |
    ⟨header, front, payload, trailer, rest, rfl, frontLength, payloadLength, trailerLength, known⟩
  · refine Or.inl ⟨error, fun more => ?_⟩
    simp [decode_of_framed idle framed, decodeV5Frame, fails more, bind, Except.bind]
  · refine Or.inr (Or.inl ?_)
    simp [decode_of_framed idle framed, decodeV5Frame, waits, bind, Except.bind]
  · have nonempty : front ++ (payload ++ trailer) ≠ [] := by
      intro empty
      simp_all
    rw [← append_assoc, ← append_assoc, append_assoc front]
    apply @stepsOn_of_front _ _ _ _ _ _ _ _ (if ofLittleEndian trailer ≠ crc32IeeeV5 payload then
        .error (.payloadChecksum (ofLittleEndian trailer) (crc32IeeeV5 payload))
      else (segmentPayload library codec.compression ⟨header, payload⟩).bind fun plain =>
        acceptPayload library codec plain header.isSelfContained) nonempty
    intro more
    simp only [append_assoc, decode_of_framed idle framed, decodeV5Frame, bind, Except.bind,
      nextSegment_append frontLength payloadLength trailerLength known more]
    split_ifs with mismatch
    · rfl
    · rcases read : segmentPayload library codec.compression ⟨header, payload⟩ with error | plain
      · simp only [read]
        rfl
      · simp only [read]
        rcases acceptPayload library codec plain header.isSelfContained with error | accepted
          <;> rfl

theorem stepsOn_of_unframed (library : Compressors) (idle : codec.pendingEnvelopes = [])
    (unframed : codec.v5Framed = false) (src : Bytes) :
    StepsOn (decode library) queued codec src := by
  by_cases short : src.length < headerSize
  · right; left
    rw [decode_of_unframed idle unframed (by omega)]
    simp [decodeV4Envelope, envelopeHeader, short, bind, Except.bind]
  · rw [not_lt] at short
    rcases parts : src.splitAt headerSize with ⟨front, behind⟩
    rw [splitAt_eq, Prod.mk.injEq] at parts
    have frontLength : front.length = headerSize := by
      rw [← parts.1, length_take]
      omega
    rw [← take_append_drop headerSize src, parts.1, parts.2]
    have sameVersion : ∀ more, (front ++ more).headD 0 = front.headD 0 := by
      intro more
      cases front <;> simp_all [headerSize]
    by_cases refused : RefusesVersion (front.headD 0)
    · left
      refine ⟨.versionMismatch (front.headD 0) 0x05, fun more => ?_⟩
      simp only [decode, idle, unframed, Bool.false_eq_true, if_false]
      rw [append_assoc, if_pos ⟨by simp only [length_append]; omega,
        by rwa [sameVersion]⟩, sameVersion]
    · have accepted : ∀ more, decode library codec (front ++ more) =
          decodeV4Envelope library codec (front ++ more) :=
        fun more => decode_of_unframed idle unframed
          (by rw [sameVersion]; exact fun both => refused both.2)
      rcases known : codec.envelopeHeader front with error | _ | header
      · left
        refine ⟨error, fun more => ?_⟩
        rw [append_assoc, accepted]
        simp [decodeV4Envelope, envelopeHeader_append frontLength.ge, known, bind, Except.bind]
      · right; left
        rw [accepted]
        simp [decodeV4Envelope, envelopeHeader_append frontLength.ge, known, bind, Except.bind]
      · by_cases incomplete : behind.length < header.length.toNat
        · right; left
          rw [accepted]
          simp [decodeV4Envelope, envelopeHeader_append frontLength.ge, known, bind, Except.bind,
            frontLength, incomplete]
        · have bodyLength : (behind.take header.length.toNat).length = header.length.toNat := by
            rw [length_take]
            omega
          have nonempty : front ++ behind.take header.length.toNat ≠ [] := by
            intro empty
            simp_all [headerSize]
          rw [← take_append_drop header.length.toNat behind, ← append_assoc]
          apply @stepsOn_of_front _ _ _ _ _ _ _ _ ((library.envelopeBody codec.compression header
            (behind.take header.length.toNat)).map fun plain => (some ⟨header, plain⟩, codec))
            nonempty
          intro more
          rw [append_assoc, accepted, decodeV4Envelope_append frontLength bodyLength known]
          rcases library.envelopeBody codec.compression header _ with error | plain <;> rfl

/-- The codec takes its frames from a byte stream that arrives in chunks. -/
def decoder (library : Compressors) : IncrementalDecoder CqlCodec UInt8 CqlFrame FrameError where
  step := decode library
  queued codec := codec.pendingEnvelopes.length
  stepsOn codec src := by
    rcases queue : codec.pendingEnvelopes with _ | ⟨frame, later⟩
    · cases framed : codec.v5Framed with
      | true => exact stepsOn_of_framed library queue framed src
      | false => exact stepsOn_of_unframed library queue framed src
    · right; right
      refine ⟨[], src, some frame, { codec with pendingEnvelopes := later }, rfl, ?_, ?_⟩
      · intro more
        simp [decode, queue]
      · simp [queue]

def leavesIncomplete (codec : CqlCodec) (payload : Bytes) (isSelfContained : Bool) : Bool :=
  !isSelfContained && (v5ReassemblyTarget (codec.v5SegmentBuf ++ payload)).all fun target =>
    (codec.v5SegmentBuf ++ payload).length < target

/-- The stream holds only slices of one envelope that is still incomplete behind the last of
them. -/
def onlySlices (library : Compressors) (codec : CqlCodec) (src : Bytes) : Bool :=
  match _taken : nextSegment codec.compression.isSome src with
  | .error _ => false
  | .ok none => true
  | .ok (some (segment, rest)) =>
    match segmentPayload library codec.compression segment with
    | .error _ => false
    | .ok payload =>
      codec.leavesIncomplete payload segment.header.isSelfContained &&
        onlySlices library { codec with v5SegmentBuf := codec.v5SegmentBuf ++ payload } rest
termination_by src.length
decreasing_by exact nextSegment_shorter _taken

/-- Up to the first refused frame, behind the first slice of an envelope only slices of it arrive.
-/
def decidesNoSlices (library : Compressors) (codec : CqlCodec) (src : Bytes) : Bool :=
  match _taken : nextSegment codec.compression.isSome src with
  | .error _ => true
  | .ok none => true
  | .ok (some (segment, rest)) =>
    match segmentPayload library codec.compression segment with
    | .error _ => true
    | .ok payload =>
      match acceptPayload library codec payload segment.header.isSelfContained with
      | .error _ => true
      | .ok _ =>
        if codec.leavesIncomplete payload segment.header.isSelfContained then
          onlySlices library { codec with v5SegmentBuf := codec.v5SegmentBuf ++ payload } rest
        else decidesNoSlices library { codec with v5SegmentBuf := [] } rest
termination_by src.length
decreasing_by exact nextSegment_shorter _taken

theorem acceptPayload_spec (library : Compressors) (codec : CqlCodec) (payload : Bytes)
    (isSelfContained : Bool) :
    if codec.leavesIncomplete payload isSelfContained then
      acceptPayload library codec payload isSelfContained =
        .ok (none, { codec with v5SegmentBuf := codec.v5SegmentBuf ++ payload })
    else
      (∃ error, acceptPayload library codec payload isSelfContained = .error error) ∨
        ∃ frame queue, acceptPayload library codec payload isSelfContained =
          .ok (some frame, { codec with
            v5SegmentBuf := [], pendingEnvelopes := codec.pendingEnvelopes ++ queue }) := by
  have emits : ∀ data, (∃ error,
      emitEnvelopes library { codec with v5SegmentBuf := [] } data = .error error) ∨
      ∃ frame queue, emitEnvelopes library { codec with v5SegmentBuf := [] } data =
        .ok (some frame, { codec with
          v5SegmentBuf := [], pendingEnvelopes := codec.pendingEnvelopes ++ queue }) := by
    intro data
    simp only [emitEnvelopes, bind, Except.bind]
    rcases envelopesFrom library codec.compression data data.length 0 with
      error | _ | ⟨first, rest⟩
    · exact Or.inl ⟨error, rfl⟩
    · exact Or.inl ⟨_, rfl⟩
    · exact Or.inr ⟨first, rest, rfl⟩
  rw [acceptPayload]
  cases isSelfContained with
  | true => exact emits _
  | false =>
    rcases known : v5ReassemblyTarget (codec.v5SegmentBuf ++ payload) with _ | target
    · simp [leavesIncomplete, known]
    · by_cases short : (codec.v5SegmentBuf ++ payload).length < target
      · simp only [length_append] at short
        simp [leavesIncomplete, known, short]
      · rw [if_neg (by simpa [leavesIncomplete, known] using short)]
        simp only [short, Bool.false_eq_true, if_false]
        split_ifs with long
        · exact Or.inl ⟨_, rfl⟩
        · exact emits _

theorem drainsDry_queue (codec : CqlCodec) (queue : List CqlFrame) (src : Bytes) :
    (decoder library).DrainsDry { codec with pendingEnvelopes := queue } src ↔
      (decoder library).DrainsDry { codec with pendingEnvelopes := [] } src := by
  induction queue with
  | nil => rfl
  | cons frame queue inductionHypothesis =>
    rw [← inductionHypothesis]
    have popped : (decoder library).step { codec with pendingEnvelopes := frame :: queue } src =
      .ok (some frame, { codec with pendingEnvelopes := queue }, src) := rfl
    exact drainsDry_iff_of_some popped

section Framed

variable (idle : codec.pendingEnvelopes = []) (framed : codec.v5Framed = true)

include idle framed

theorem step_eq (src : Bytes) : (decoder library).step codec src =
    match nextSegment codec.compression.isSome src with
    | .error error => .error error
    | .ok none => .ok (none, codec, src)
    | .ok (some (segment, rest)) =>
      match segmentPayload library codec.compression segment with
      | .error error => .error error
      | .ok payload =>
        (acceptPayload library codec payload segment.header.isSelfContained).map
          fun accepted => (accepted.1, accepted.2, rest) := by
  have unfolded : (decoder library).step codec src = decodeV5Frame library codec src :=
    decode_of_framed idle framed src
  simp only [unfolded, decodeV5Frame, bind, Except.bind]
  rcases nextSegment codec.compression.isSome src with _ | _ | ⟨segment, rest⟩
  · rfl
  · rfl
  · rcases read : segmentPayload library codec.compression segment with _ | payload
    · simp only [read]
    · simp only [read]
      rcases acceptPayload library codec payload segment.header.isSelfContained with _ | _ <;> rfl

theorem quiet_iff (src : Bytes) :
    (decoder library).Quiet (codec, src) ↔ onlySlices library codec src = true := by
  fun_induction onlySlices library codec src with
  | case1 codec src error failed =>
    have step := @step_eq library _ idle framed src
    simp only [failed] at step
    simp [Quiet, decodeAll_of_error step]
  | case2 codec src waits =>
    have step := @step_eq library _ idle framed src
    simp only [waits] at step
    simp [Quiet, decodeAll_of_waiting step]
  | case3 codec src segment rest taken error unreadable =>
    have step := @step_eq library _ idle framed src
    simp only [taken, unreadable] at step
    simp [Quiet, decodeAll_of_error step]
  | case4 codec src segment rest taken payload read inductionHypothesis =>
    have step := @step_eq library _ idle framed src
    have outcome := acceptPayload_spec library codec payload segment.header.isSelfContained
    simp only [taken, read] at step
    split_ifs at outcome with incomplete
    · rw [outcome] at step
      rw [incomplete, Bool.true_and, ← inductionHypothesis idle framed, Quiet,
        decodeAll_of_none step]
      rfl
    · rcases outcome with ⟨error, refused⟩ | ⟨frame, queue, returned⟩
      · rw [refused] at step
        simp [Quiet, decodeAll_of_error step, incomplete]
      · rw [returned] at step
        simp [Quiet, decodeAll_of_some step, incomplete]

theorem drainsDry_framed_iff (src : Bytes) :
    (decoder library).DrainsDry codec src ↔ decidesNoSlices library codec src = true := by
  fun_induction decidesNoSlices library codec src with
  | case1 codec src error failed =>
    have step := @step_eq library _ idle framed src
    simp only [failed] at step
    simpa using of_error step
  | case2 codec src waits =>
    have step := @step_eq library _ idle framed src
    simp only [waits] at step
    simpa using of_quiet (decodeAll_of_waiting step)
  | case3 codec src segment rest taken error unreadable =>
    have step := @step_eq library _ idle framed src
    simp only [taken, unreadable] at step
    simpa using of_error step
  | case4 codec src segment rest taken payload read error refused =>
    have step := @step_eq library _ idle framed src
    simp only [taken, read, refused] at step
    simpa using of_error step
  | case5 codec src segment rest taken payload read accepted isAccepted incomplete =>
    have step := @step_eq library _ idle framed src
    have outcome := acceptPayload_spec library codec payload segment.header.isSelfContained
    rw [if_pos incomplete] at outcome
    simp only [taken, read, outcome] at step
    rw [← quiet_iff (by exact idle) (by exact framed), DrainsDry, drain_of_none step]
    simp
  | case6 codec src segment rest taken payload read accepted isAccepted complete
      inductionHypothesis =>
      have step := @step_eq library _ idle framed src
      have outcome := acceptPayload_spec library codec payload segment.header.isSelfContained
      rw [if_neg complete] at outcome
      rcases outcome with ⟨error, refused⟩ | ⟨frame, queue, returned⟩
      · simp [refused] at isAccepted
      · simp only [taken, read, returned] at step
        have queued := @drainsDry_queue library { codec with v5SegmentBuf := [] } queue rest
        rw [← inductionHypothesis idle framed, drainsDry_iff_of_some step]
        simpa only [idle, nil_append] using queued

end Framed

theorem decode_of_unframed_ok (unframed : codec.v5Framed = false) {src rest : Bytes}
    {item : Option CqlFrame} {next : CqlCodec}
    (decoded : decode library codec src = .ok (item, next, rest)) :
    next.v5Framed = false ∧ (item = none → next = codec ∧ rest = src) := by
  rcases queue : codec.pendingEnvelopes with _ | ⟨frame, later⟩
  · simp only [decode, queue, unframed, Bool.false_eq_true, if_false] at decoded
    split_ifs at decoded
    simp only [decodeV4Envelope, bind, Except.bind] at decoded
    rcases known : codec.envelopeHeader src with error | _ | header
      <;> simp only [known] at decoded
    · simp at decoded
    · simp only [Except.ok.injEq, Prod.mk.injEq] at decoded
      simp [← decoded.2.1, ← decoded.2.2, unframed]
    · split_ifs at decoded with incomplete
      · simp only [Except.ok.injEq, Prod.mk.injEq] at decoded
        simp [← decoded.2.1, ← decoded.2.2, unframed]
      · rcases read : library.envelopeBody codec.compression header
          ((src.drop headerSize).take header.length.toNat) with error | plain
          <;> simp [read] at decoded
        simp [← decoded.1, ← decoded.2.1, unframed]
  · simp only [decode, queue, Except.ok.injEq, Prod.mk.injEq] at decoded
    simp [← decoded.1, ← decoded.2.1, unframed]

theorem drainsDry_of_unframed (unframed : codec.v5Framed = false) (src : Bytes) :
    (decoder library).DrainsDry codec src := by
  induction codec, src using @step_induction _ _ _ _ (decoder library) with
  | failed isError => exact .of_error isError
  | waiting waits => exact .of_quiet (decodeAll_of_waiting waits)
  | absorbed takes inductionHypothesis =>
    rcases (decode_of_unframed_ok unframed (takes _)).2 rfl with ⟨rfl, same⟩
    rw [← same]
    exact inductionHypothesis unframed
  | returned takes inductionHypothesis =>
    rw [drainsDry_iff_of_some (takes _)]
    exact inductionHypothesis (decode_of_unframed_ok unframed (takes [])).1

theorem drainsDry_iff (library : Compressors) (codec : CqlCodec) (src : Bytes) :
    (decoder library).DrainsDry codec src ↔ (codec.v5Framed = true →
        decidesNoSlices library { codec with pendingEnvelopes := [] } src = true) := by
  have queued := @drainsDry_queue library codec codec.pendingEnvelopes src
  rw [queued]
  by_cases framed : codec.v5Framed = true
  · rw [drainsDry_framed_iff (by rfl) (by exact framed)]
    simp [framed]
  · simp [framed, drainsDry_of_unframed]

/-- The frames that the codec returns for a stream, called after every chunk until it returns
nothing. -/
def framesOf (library : Compressors) (codec : CqlCodec) (chunks : List Bytes) :
    List CqlFrame × Option FrameError :=
  produced ((decoder library).feed (codec, []) chunks)

/-- Calling the codec again until it has consumed what it can returns a frame or an error. -/
def LeavesFrame (library : Compressors) (held : CqlCodec × Bytes) : Prop :=
  ¬ (decoder library).Quiet held

/-- However a stream is cut, the codec returns the same frames and keeps none back, exactly if no
sliced envelope is decided within the stream. -/
theorem framesOf_agree_iff (library : Compressors) (codec : CqlCodec) (stream : Bytes) :
    (∀ chunks others, chunks ≠ [] → others ≠ [] → chunks.flatten = stream →
        others.flatten = stream →
        framesOf library codec chunks = framesOf library codec others ∧
        ∀ final, ((decoder library).feed (codec, []) chunks).2 = .ok final →
          ¬ LeavesFrame library final) ↔
      (codec.v5Framed = true →
        decidesNoSlices library { codec with pendingEnvelopes := [] } stream = true) := by
  rw [← drainsDry_iff, ← cuts_agree_iff]
  constructor
  · intro agree chunks others nonempty othersNonempty isStream othersStream
    exact (agree chunks others nonempty othersNonempty isStream othersStream).1
  · intro agree chunks others nonempty othersNonempty isStream othersStream
    refine ⟨agree chunks others nonempty othersNonempty isStream othersStream, ?_⟩
    intro final ended
    have dry := ((decoder library).cuts_agree_iff codec stream).mp agree
    rw [LeavesFrame, not_not]
    apply DrainsDry.feed nonempty _ ended
    rwa [nil_append, isStream]

/-- Compressors that store what they are given behind a byte that tells whether it is empty. -/
def storing : Compressors where
  lz4Compress data := data
  lz4Decompress data size := if data.length = size then some data else none
  snappyCompress data := some (if data = [] then [0] else 1 :: data)
  snappyDecompress
    | [] => none
    | 0 :: _ => some []
    | _ :: data => some data

def optionsSlices : Bytes × Bytes :=
  ([0x05, 0x00, 0x00, 0x04, 0x48, 0x23, 0x05, 0x00, 0x00, 0x01, 0x05, 0x51, 0x9B, 0xAD, 0xE7],
    [0x04, 0x00, 0x00, 0x1C, 0x28, 0x4B, 0x00, 0x00, 0x00, 0x00, 0x89, 0xE6, 0x05, 0x5A])

theorem framesOf_optionsSlices :
    let codec := { CqlCodec.new 0x10000000 with v5Framed := true }
    framesOf storing codec [optionsSlices.1, optionsSlices.2] =
        ([⟨⟨0x05, 0x00, 1, .options, 0⟩, []⟩], none) ∧
      framesOf storing codec [optionsSlices.1 ++ optionsSlices.2] = ([], none) ∧
      ∃ final, ((decoder storing).feed (codec, []) [optionsSlices.1 ++ optionsSlices.2]).2 =
        .ok final ∧ LeavesFrame storing final := by
  intro codec
  let held : CqlCodec := { codec with v5SegmentBuf := [0x05, 0x00, 0x00, 0x01, 0x05] }
  have first : (decoder storing).step codec optionsSlices.1 = .ok (none, held, []) := by
    decide +kernel
  have second : (decoder storing).step held optionsSlices.2 =
      .ok (some ⟨⟨0x05, 0x00, 1, .options, 0⟩, []⟩, codec, []) := by
    decide +kernel
  have both : (decoder storing).step codec (optionsSlices.1 ++ optionsSlices.2) =
      .ok (none, held, optionsSlices.2) := by
    decide +kernel
  have waits : (decoder storing).step codec [] = .ok (none, codec, []) := by
    decide +kernel
  have oneChunk : (decoder storing).feed (codec, []) [optionsSlices.1 ++ optionsSlices.2] =
      ([], .ok (held, optionsSlices.2)) := by
    simp [feed, drain_of_none both]
  refine ⟨?_, ?_, (held, optionsSlices.2), by rw [oneChunk], ?_⟩
  · simp [framesOf, feed, drain_of_none first, drain_of_some second, drain_of_none waits, produced]
  · rw [framesOf, oneChunk]
    rfl
  · simp [LeavesFrame, Quiet, decodeAll_of_some second]

end CqlCodec

end Ferrosa.Cql
