import Mathlib

/-!
# Decoders of byte strings

A decoder consumes bytes from the front of its input or fails.  Two rules are
used to reason about one.  `Reads` follows the decoder over bytes that were
written for it, whatever comes after them.  `Ensures` says what holds of every
value a decoder may return, whatever its input was.
-/

namespace Ferrosa

open List

universe u v

def bigEndian : Nat → Nat → List UInt8
  | 0, _ => []
  | width + 1, value => bigEndian width (value / 256) ++ [UInt8.ofNat value]

def ofBigEndian (bytes : List UInt8) : Nat :=
  bytes.foldl (fun value byte => value * 256 + byte.toNat) 0

@[simp] theorem length_bigEndian (width value : Nat) : (bigEndian width value).length = width := by
  induction width generalizing value with
  | zero => rfl
  | succ width ih => simp [bigEndian, ih]

theorem ofBigEndian_bigEndian (width value : Nat) :
    ofBigEndian (bigEndian width value) = value % 256 ^ width := by
  induction width generalizing value with
  | zero => simp [bigEndian, ofBigEndian, Nat.mod_one]
  | succ width ih =>
    have front : ofBigEndian (bigEndian (width + 1) value) =
        ofBigEndian (bigEndian width (value / 256)) * 256 + value % 256 := by
      simp [bigEndian, ofBigEndian, foldl_append]
    rw [front, ih, Nat.pow_succ, Nat.mul_comm (256 ^ width) 256, Nat.mod_mul]
    omega

theorem ofBigEndian_bigEndian_of_lt {width value : Nat} (small : value < 256 ^ width) :
    ofBigEndian (bigEndian width value) = value := by
  rw [ofBigEndian_bigEndian, Nat.mod_eq_of_lt small]

def littleEndian (width value : ℕ) : List UInt8 := (bigEndian width value).reverse

def ofLittleEndian (bytes : List UInt8) : ℕ := ofBigEndian bytes.reverse

@[simp] theorem length_littleEndian (width value : ℕ) :
    (littleEndian width value).length = width := by
  simp [littleEndian]

theorem ofLittleEndian_littleEndian_of_lt {width value : ℕ} (small : value < 256 ^ width) :
    ofLittleEndian (littleEndian width value) = value := by
  rw [ofLittleEndian, littleEndian, reverse_reverse, ofBigEndian_bigEndian_of_lt small]

theorem fromUTF8?_toList_toByteArray (text : String) :
    String.fromUTF8? ⟨text.toByteArray.data.toList.toArray⟩ = some text := by
  have bytes : (⟨text.toByteArray.data.toList.toArray⟩ : ByteArray) = text.toByteArray := by simp
  rw [bytes, String.fromUTF8?, dif_pos text.isValidUTF8]
  rfl

abbrev Decoder (ε : Type u) (α : Type) := StateT (List UInt8) (Except ε) α

namespace Decoder

variable {ε : Type u} {α β : Type}

def take (count : Nat) (tooShort : Nat → ε) : Decoder ε (List UInt8) := fun input =>
  if input.length < count then .error (tooShort input.length)
  else .ok (input.take count, input.drop count)

def takeLittleEndian (width : Nat) (tooShort : Nat → ε) : Decoder ε Nat := do
  let bytes ← take width tooShort
  pure (ofLittleEndian bytes)

def times (count : Nat) (item : Decoder ε α) : Decoder ε (List α) :=
  match count with
  | 0 => pure []
  | count + 1 => do
      let first ← item
      let rest ← times count item
      pure (first :: rest)

/-- The decoder returns `value` after exactly these bytes. -/
def Reads (decoder : Decoder ε α) (bytes : List UInt8) (value : α) : Prop :=
  ∀ rest, decoder (bytes ++ rest) = .ok (value, rest)

theorem Reads.pure (value : α) : Reads (pure value : Decoder ε α) [] value :=
  fun _ => rfl

variable {decoder item : Decoder ε α} {value : α} {next : α → Decoder ε β} {property : α → Prop}

theorem Reads.bind {front back : List UInt8} {result : β} (first : Reads decoder front value)
    (second : Reads (next value) back result) :
    Reads (decoder >>= next) (front ++ back) result := by
  intro rest
  have step := first (back ++ rest)
  rw [append_assoc]
  change (decoder (front ++ (back ++ rest)) >>= fun pair => next pair.1 pair.2) = _
  rw [step]
  exact second rest

variable {bytes : List UInt8}

theorem Reads.bind_pure {result : β}
    (first : Reads decoder bytes value) (second : Reads (next value) [] result) :
    Reads (decoder >>= next) bytes result := by
  have both := first.bind second
  rwa [append_nil] at both

theorem Reads.unique {left right : α}
    (readsLeft : Reads decoder bytes left) (readsRight : Reads decoder bytes right) :
    left = right := by
  have same := (readsLeft []).symm.trans (readsRight [])
  simp only [Except.ok.injEq, Prod.mk.injEq, and_true] at same
  exact same

theorem Reads.convert {raw : α} {convert : α → β}
    {value : β} (reads : Reads decoder bytes raw) (same : convert raw = value) :
    Reads (do let raw ← decoder; Pure.pure (convert raw)) bytes value := by
  apply reads.bind_pure
  subst same
  exact Reads.pure _

theorem reads_take {count : Nat} (tooShort : Nat → ε)
    (whole : bytes.length = count) : Reads (take count tooShort) bytes bytes := by
  intro rest
  subst whole
  simp [take]

theorem reads_takeLittleEndian {width value : Nat} (tooShort : Nat → ε)
    (small : value < 256 ^ width) :
    Reads (takeLittleEndian width tooShort) (littleEndian width value) value :=
  (reads_take tooShort (length_littleEndian width value)).convert
    (ofLittleEndian_littleEndian_of_lt small)

/-- Items written one after the other are read back by as many runs. -/
theorem reads_times {encode : α → List UInt8} {items : List α}
    (each : ∀ value ∈ items, Reads item (encode value) value) :
    Reads (times items.length item) (items.flatMap encode) items := by
  induction items with
  | nil => exact Reads.pure []
  | cons first rest ih =>
    rw [flatMap_cons]
    have later := ih (fun value present => each value (mem_cons_of_mem _ present))
    exact (each first mem_cons_self).bind (later.bind_pure (Reads.pure _))

/-- On every input shorter than the bound, what is returned satisfies the property. -/
def Ensures (bound : Nat) (decoder : Decoder ε α) (property : α → Prop) : Prop :=
  ∀ input value rest, input.length < bound → decoder input = .ok (value, rest) →
    rest.length < bound ∧ property value

variable {bound : Nat}

theorem Ensures.pure (holds : property value) :
    Ensures bound (pure value : Decoder ε α) property := by
  intro input returned rest short isPure
  obtain ⟨rfl, rfl⟩ := Prod.mk.inj (Except.ok.inj isPure)
  exact ⟨short, holds⟩

theorem Ensures.error {error : ε} : Ensures bound (throw error : Decoder ε α) property := by
  intro input returned rest short isError
  cases isError

theorem Ensures.bind {first : α → Prop}
    {property : β → Prop} (ensuresFirst : Ensures bound decoder first)
    (ensuresNext : ∀ value, first value → Ensures bound (next value) property) :
    Ensures bound (decoder >>= next) property := by
  intro input result rest short isBind
  change (decoder input >>= fun pair => next pair.1 pair.2) = _ at isBind
  cases step : decoder input with
  | error error =>
    rw [step] at isBind
    cases isBind
  | ok pair =>
    rw [step] at isBind
    obtain ⟨shorter, holds⟩ := ensuresFirst input pair.1 pair.2 short step
    exact ensuresNext pair.1 holds pair.2 result rest shorter isBind

theorem Ensures.mono {strong weak : α → Prop}
    (ensures : Ensures bound decoder strong) (imp : ∀ value, strong value → weak value) :
    Ensures bound decoder weak := by
  intro input value rest short isOk
  obtain ⟨shorter, holds⟩ := ensures input value rest short isOk
  exact ⟨shorter, imp value holds⟩

theorem ensures_take (count : Nat) (tooShort : Nat → ε) :
    Ensures bound (take count tooShort) (fun bytes => bytes.length = count ∧ count < bound) := by
  intro input value rest short isOk
  unfold take at isOk
  split_ifs at isOk with missing
  obtain ⟨rfl, rfl⟩ := Prod.mk.inj (Except.ok.inj isOk)
  simp only [length_drop, length_take]
  omega

theorem ensures_times (count : Nat) (each : Ensures bound item property) :
    Ensures bound (times count item)
      (fun items => items.length = count ∧ ∀ value ∈ items, property value) := by
  induction count with
  | zero => exact Ensures.pure (by simp)
  | succ count ih =>
    apply each.bind
    intro first holds
    apply ih.bind
    rintro rest ⟨counted, all⟩
    exact Ensures.pure (by simpa [counted] using ⟨holds, all⟩)

end Decoder

end Ferrosa
