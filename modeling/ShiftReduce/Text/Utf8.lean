/-
Texts from bytes.

A character is one byte below 128, or a first byte that says how many bytes follow and one to
three following bytes. The first of the following bytes is bounded more narrowly after some
first bytes, so that no character has two forms, none is a surrogate and none is beyond the last
code point.

* `Utf8.decode` — the text that bytes encode;
* `Utf8.Fault` — the first place where they encode none, and `Fault.message`;
* `Utf8.decode_ascii` — bytes below 128 are the characters of the same number.
-/
namespace ShiftReduce.Text.Utf8

/-- Why bytes are not a character. -/
inductive Cause where
  /-- No character starts with this byte. -/
  | start
  /-- The bytes so far need another than the next one. -/
  | continuation
  /-- The bytes end within a character. -/
  | ended
  deriving DecidableEq, Repr

/-- The bytes from `position` on, `length` of them and the first of them `byte`, are not a
character. -/
structure Fault where
  cause : Cause
  position : Nat
  length : Nat
  byte : UInt8
  deriving DecidableEq, Repr

/-- A byte as two lowercase hexadecimal digits. -/
def hexByte (b : UInt8) : String :=
  let digits := Nat.toDigits 16 b.toNat
  String.ofList (List.replicate (2 - digits.length) '0' ++ digits)

/-- The wording of a cause. -/
def Cause.message : Cause → String
  | start => "invalid start byte"
  | continuation => "invalid continuation byte"
  | ended => "unexpected end of data"

/-- The wording of a fault: a single byte is shown, several are located. -/
def Fault.message (f : Fault) : String :=
  let place :=
    if f.length = 1 then "byte 0x" ++ hexByte f.byte ++ " in position " ++ toString f.position
    else "bytes in position " ++ toString f.position ++ "-"
      ++ toString (f.position + f.length - 1)
  "'utf-8' codec can't decode " ++ place ++ ": " ++ f.cause.message

/-- A character of which some bytes are read: where it starts, its first byte, how many bytes are
read and how many are owed, the bounds of the next one, and the number read so far. -/
structure Begun where
  start : Nat
  first : UInt8
  read : Nat
  owed : Nat
  low : Nat
  high : Nat
  value : Nat
  deriving Repr

/-- What a first byte of at least 128 begins. -/
def begin? (position : Nat) (b : UInt8) : Option Begun :=
  let n := b.toNat
  let begun (owed low high value : Nat) : Option Begun :=
    some ⟨position, b, 1, owed, low, high, value⟩
  if n < 0xC2 then none
  else if n < 0xE0 then begun 1 0x80 0xBF (n - 0xC0)
  else if n < 0xF0 then
    begun 2 (if n = 0xE0 then 0xA0 else 0x80) (if n = 0xED then 0x9F else 0xBF) (n - 0xE0)
  else if n < 0xF5 then
    begun 3 (if n = 0xF0 then 0x90 else 0x80) (if n = 0xF4 then 0x8F else 0xBF) (n - 0xF0)
  else none

/-- The text of the bytes from `position` on, after the bytes of the character that is begun. -/
def decodeFrom (position : Nat) : Option Begun → List UInt8 → Except Fault (List Char)
  | none, [] => .ok []
  | some c, [] => .error ⟨.ended, c.start, c.read, c.first⟩
  | none, b :: bs =>
    if b.toNat < 0x80 then (Char.ofNat b.toNat :: ·) <$> decodeFrom (position + 1) none bs
    else
      match begin? position b with
      | none => .error ⟨.start, position, 1, b⟩
      | some c => decodeFrom (position + 1) (some c) bs
  | some c, b :: bs =>
    if b.toNat < c.low ∨ c.high < b.toNat then .error ⟨.continuation, c.start, c.read, c.first⟩
    else
      let value := c.value * 64 + (b.toNat - 0x80)
      if c.owed = 1 then (Char.ofNat value :: ·) <$> decodeFrom (position + 1) none bs
      else
        let c := { c with read := c.read + 1, owed := c.owed - 1, low := 0x80, high := 0xBF, value }
        decodeFrom (position + 1) (some c) bs

/-- The text that bytes encode. -/
def decode (bytes : List UInt8) : Except Fault String :=
  String.ofList <$> decodeFrom 0 none bytes

theorem decodeFrom_ascii {bytes : List UInt8} (h : ∀ b ∈ bytes, b.toNat < 0x80) (position : Nat) :
    decodeFrom position none bytes = .ok (bytes.map fun b => Char.ofNat b.toNat) := by
  induction bytes generalizing position with
  | nil => rfl
  | cons b bs ih =>
    have hb := h b List.mem_cons_self
    have hbs := ih (fun c hc => h c (List.mem_cons_of_mem b hc)) (position + 1)
    rw [decodeFrom, if_pos hb, hbs]
    rfl

theorem decode_ascii {bytes : List UInt8} (h : ∀ b ∈ bytes, b.toNat < 0x80) :
    decode bytes = .ok (String.ofList (bytes.map fun b => Char.ofNat b.toNat)) := by
  rw [decode, decodeFrom_ascii h]
  rfl

end ShiftReduce.Text.Utf8
