import Ferrosa.Lib.Decoder

/-!
# Length-prefixed frames

Records are written one after the other, each behind its length as four little-endian
bytes.  A reader takes frames from the front until one is incomplete or does not decode,
and returns what it decoded with the bytes that are left.  What a writer appended is read
back, and a file cut off anywhere is read up to the last complete frame.
-/

namespace Ferrosa.Framing

open List

universe u

def payloadLimit : ℕ := 2 ^ 32

def frame (payload : List UInt8) : List UInt8 := littleEndian 4 payload.length ++ payload

def frames (payloads : List (List UInt8)) : List UInt8 := payloads.flatMap frame

/-- The payload of the frame at the front, and the bytes behind it. -/
def nextFrame (bytes : List UInt8) : Option (List UInt8 × List UInt8) :=
  if bytes.length < 4 then none
  else
    let length := ofLittleEndian (bytes.take 4)
    let rest := bytes.drop 4
    if rest.length < length then none else some (rest.take length, rest.drop length)

variable {α : Type u}

def readAtMost (decode : List UInt8 → Option α) : ℕ → List UInt8 → List α × List UInt8
  | 0, bytes => ([], bytes)
  | fuel + 1, bytes =>
    match nextFrame bytes with
    | none => ([], bytes)
    | some (payload, rest) =>
      match decode payload with
      | none => ([], bytes)
      | some record =>
        let next := readAtMost decode fuel rest
        (record :: next.1, next.2)

def readFrames (decode : List UInt8 → Option α) (bytes : List UInt8) : List α × List UInt8 :=
  readAtMost decode bytes.length bytes

@[simp] theorem length_frame (payload : List UInt8) :
    (frame payload).length = 4 + payload.length := by
  simp [frame]

@[simp] theorem frames_nil : frames [] = [] := rfl

@[simp] theorem frames_cons (payload : List UInt8) (payloads : List (List UInt8)) :
    frames (payload :: payloads) = frame payload ++ frames payloads := rfl

@[simp] theorem frames_append (front back : List (List UInt8)) :
    frames (front ++ back) = frames front ++ frames back := List.flatMap_append

theorem nextFrame_frame_append {payload : List UInt8} (fits : payload.length < payloadLimit)
    (rest : List UInt8) : nextFrame (frame payload ++ rest) = some (payload, rest) := by
  have prefixed : (frame payload ++ rest).take 4 = littleEndian 4 payload.length := by
    simp [frame]
  have behind : (frame payload ++ rest).drop 4 = payload ++ rest := by
    simp [frame]
  have decoded : ofLittleEndian (littleEndian 4 payload.length) = payload.length :=
    ofLittleEndian_littleEndian_of_lt fits
  have longEnough : ¬ (frame payload ++ rest).length < 4 := by simp; omega
  simp only [nextFrame, if_neg longEnough, prefixed, behind, decoded]
  simp

theorem nextFrame_eq_none {payload bytes : List UInt8} (fits : payload.length < payloadLimit)
    (torn : bytes <+: frame payload) (incomplete : bytes.length < (frame payload).length) :
    nextFrame bytes = none := by
  rcases torn with ⟨missing, whole⟩
  by_cases short : bytes.length < 4
  · simp [nextFrame, short]
  · have prefixed : bytes.take 4 = littleEndian 4 payload.length := by
      have sameFront := congrArg (List.take 4) whole
      rw [take_append_of_le_length (by omega)] at sameFront
      simpa [frame, take_append] using sameFront
    have decoded : ofLittleEndian (bytes.take 4) = payload.length := by
      rw [prefixed]
      exact ofLittleEndian_littleEndian_of_lt fits
    have tooShort : (bytes.drop 4).length < payload.length := by
      simp only [length_frame] at incomplete
      simp only [length_drop]
      omega
    simp only [nextFrame, if_neg short, decoded, if_pos tooShort]

theorem length_nextFrame {bytes payload rest : List UInt8}
    (next : nextFrame bytes = some (payload, rest)) :
    bytes.length = 4 + payload.length + rest.length := by
  simp only [nextFrame] at next
  split_ifs at next with short missing
  simp only [Option.some.injEq, Prod.mk.injEq] at next
  rcases next with ⟨rfl, rfl⟩
  simp only [length_take, length_drop] at missing ⊢
  omega

section Read

variable {decode : List UInt8 → Option α} {bytes : List UInt8} {records : List α}

theorem readAtMost_eq_of_le {fuel more : ℕ} (enough : bytes.length ≤ fuel)
    (enoughMore : bytes.length ≤ more) :
    readAtMost decode fuel bytes = readAtMost decode more bytes := by
  induction fuel generalizing more bytes with
  | zero =>
    have empty : bytes = [] := length_eq_zero_iff.mp (by omega)
    subst empty
    cases more <;> rfl
  | succ fuel ih =>
    cases more with
    | zero =>
      have empty : bytes = [] := length_eq_zero_iff.mp (by omega)
      subst empty
      rfl
    | succ more =>
      simp only [readAtMost]
      cases next : nextFrame bytes with
      | none => rfl
      | some frame =>
        have shorter := length_nextFrame next
        have later : readAtMost decode fuel frame.2 = readAtMost decode more frame.2 :=
          ih (by omega) (by omega)
        simp only [later]

@[simp] theorem readFrames_nil : readFrames decode [] = ([], []) := rfl

theorem readFrames_eq_of_nextFrame_none (torn : nextFrame bytes = none) :
    readFrames decode bytes = ([], bytes) := by
  unfold readFrames
  cases bytes.length <;> simp [readAtMost, torn]

theorem readFrames_frame_append {payload : List UInt8} {record : α}
    (fits : payload.length < payloadLimit) (decoded : decode payload = some record)
    (rest : List UInt8) :
    readFrames decode (frame payload ++ rest) =
      (record :: (readFrames decode rest).1, (readFrames decode rest).2) := by
  have fuel : (frame payload ++ rest).length = (3 + payload.length + rest.length) + 1 := by
    simp
    omega
  have later : readAtMost decode (3 + payload.length + rest.length) rest =
      readFrames decode rest := readAtMost_eq_of_le (by omega) (Nat.le_refl _)
  simp only [readFrames, fuel, readAtMost, nextFrame_frame_append fits, decoded]
  rw [later]
  rfl

variable {encode : α → List UInt8}

theorem readFrames_frames_append
    (decoded : ∀ record ∈ records, (encode record).length < payloadLimit ∧
      decode (encode record) = some record) (rest : List UInt8) :
    readFrames decode (frames (records.map encode) ++ rest) =
      (records ++ (readFrames decode rest).1, (readFrames decode rest).2) := by
  induction records with
  | nil => simp
  | cons record records ih =>
    rcases forall_mem_cons.mp decoded with ⟨⟨fits, first⟩, others⟩
    rw [map_cons, frames_cons, append_assoc, readFrames_frame_append fits first, ih others]
    simp

/-- A file that was cut off is read up to a frame boundary before the cut. -/
theorem readFrames_of_isPrefix
    (decoded : ∀ record ∈ records, (encode record).length < payloadLimit ∧
      decode (encode record) = some record) (cut : bytes <+: frames (records.map encode)) :
    (readFrames decode bytes).1 <+: records := by
  induction records generalizing bytes with
  | nil =>
    have empty : bytes = [] := prefix_nil.mp cut
    simp [empty]
  | cons record records ih =>
    rcases forall_mem_cons.mp decoded with ⟨⟨fits, first⟩, others⟩
    rw [map_cons, frames_cons] at cut
    have whole : frame (encode record) <+: frame (encode record) ++ frames (records.map encode) :=
      prefix_append _ _
    rcases Nat.lt_or_ge bytes.length (frame (encode record)).length with short | long
    · have torn : bytes <+: frame (encode record) :=
        prefix_of_prefix_length_le cut whole (Nat.le_of_lt short)
      rw [readFrames_eq_of_nextFrame_none (nextFrame_eq_none fits torn short)]
      exact nil_prefix
    · rcases prefix_of_prefix_length_le whole cut long with ⟨rest, rfl⟩
      rw [readFrames_frame_append fits first]
      rw [prefix_append_right_inj] at cut
      exact cons_prefix_cons.mpr ⟨rfl, ih others cut⟩

end Read

end Ferrosa.Framing
