/-! UTF-8: encoding a text, and decoding bytes with the place and cause of the first fault. -/
namespace CronWrap.Text

/-- The content of a file. -/
abbrev Bytes := List UInt8

inductive Utf8Fault
  | invalidStart
  | invalidContinuation
  | unexpectedEnd
  deriving DecidableEq, Repr

/-- The bytes from `start` up to `stop`, the first of them `byte`, are no part of a UTF-8 text. -/
structure Utf8Error where
  start : Nat
  stop : Nat
  byte : UInt8
  fault : Utf8Fault
  deriving DecidableEq, Repr

def encodeUtf8 (cs : List Char) : Bytes := cs.flatMap String.utf8EncodeChar

@[simp] theorem encodeUtf8_nil : encodeUtf8 [] = [] := rfl

@[simp] theorem encodeUtf8_cons (c : Char) (cs : List Char) :
    encodeUtf8 (c :: cs) = String.utf8EncodeChar c ++ encodeUtf8 cs := rfl

@[simp] theorem encodeUtf8_append (cs ds : List Char) :
    encodeUtf8 (cs ++ ds) = encodeUtf8 cs ++ encodeUtf8 ds := by simp [encodeUtf8]

/-- The number of bytes that a text takes. -/
def utf8Length (cs : List Char) : Nat := (encodeUtf8 cs).length

def isContinuation (b : UInt8) : Bool := 0x80 ≤ b && b < 0xc0

/-- Whether `b` may follow the lead byte `lead`: no overlong forms, no surrogates, no code point
above U+10FFFF. -/
def isSecond (lead b : UInt8) : Bool :=
  isContinuation b && !(lead == 0xe0 && b < 0xa0) && !(lead == 0xed && 0xa0 ≤ b)
    && !(lead == 0xf0 && b < 0x90) && !(lead == 0xf4 && 0x90 ≤ b)

/-- The character of a lead byte's payload followed by continuation bytes. -/
def joinBytes (payload : Nat) (rest : Bytes) : Char :=
  Char.ofNat (rest.foldl (fun n b => n * 64 + b.toNat % 64) payload)

/-- Decodes the bytes that start at offset `at_`. -/
def decodeUtf8From (at_ : Nat) : Bytes → Except Utf8Error (List Char)
  | [] => .ok []
  | a :: rest =>
    let faulty (size : Nat) (fault : Utf8Fault) : Except Utf8Error (List Char) :=
      .error ⟨at_, at_ + size, a, fault⟩
    let cut := faulty (rest.length + 1) .unexpectedEnd
    if a < 0x80 then
      (Char.ofNat a.toNat :: ·) <$> decodeUtf8From (at_ + 1) rest
    else if a < 0xc2 || 0xf4 < a then
      faulty 1 .invalidStart
    else
      match rest with
      | [] => cut
      | b :: rest =>
        if !isSecond a b then faulty 1 .invalidContinuation
        else if a < 0xe0 then
          (joinBytes (a.toNat % 32) [b] :: ·) <$> decodeUtf8From (at_ + 2) rest
        else
          match rest with
          | [] => cut
          | c :: rest =>
            if !isContinuation c then faulty 2 .invalidContinuation
            else if a < 0xf0 then
              (joinBytes (a.toNat % 16) [b, c] :: ·) <$> decodeUtf8From (at_ + 3) rest
            else
              match rest with
              | [] => cut
              | d :: rest =>
                if !isContinuation d then faulty 3 .invalidContinuation
                else (joinBytes (a.toNat % 8) [b, c, d] :: ·) <$> decodeUtf8From (at_ + 4) rest

def decodeUtf8 (bytes : Bytes) : Except Utf8Error (List Char) := decodeUtf8From 0 bytes

def Utf8Fault.text : Utf8Fault → String
  | .invalidStart => "invalid start byte"
  | .invalidContinuation => "invalid continuation byte"
  | .unexpectedEnd => "unexpected end of data"

/-- Two hexadecimal digits. -/
def hexByte (b : UInt8) : String :=
  String.ofList [Nat.digitChar (b.toNat / 16), Nat.digitChar (b.toNat % 16)]

def Utf8Error.message (e : Utf8Error) : String :=
  if e.stop = e.start + 1 then
    s!"'utf-8' codec can't decode byte 0x{hexByte e.byte} in position {e.start}: {e.fault.text}"
  else
    s!"'utf-8' codec can't decode bytes in position {e.start}-{e.stop - 1}: {e.fault.text}"

example : decodeUtf8 [0x61, 0xc3, 0xa9, 0xf0, 0x9f, 0x98, 0x80] = .ok ['a', 'é', '😀'] := by rfl

example : decodeUtf8 [0x61, 0xe2, 0x82] = .error ⟨1, 3, 0xe2, .unexpectedEnd⟩ := by rfl

end CronWrap.Text
