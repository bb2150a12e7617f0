import GoFlow.Text.Quoted

/-!
Bytes as text in UTF-8. A character takes one to four bytes; the ranges of its second byte keep out
forms that are too long, surrogates and numbers beyond the last character. What cannot be read is
told by its place, its width and a reason.
-/

namespace GoFlow.Text

inductive ByteReason where
  | badStart
  | badContinuation
  /-- The bytes end within a character. -/
  | cutOff
  deriving DecidableEq, Repr, Inhabited

structure ByteFault where
  place : Nat
  width : Nat
  /-- The first byte of those that cannot be read. -/
  byte : UInt8
  reason : ByteReason
  deriving DecidableEq, Repr, Inhabited

namespace ByteReason

def message : ByteReason → String
  | badStart => "invalid start byte"
  | badContinuation => "invalid continuation byte"
  | cutOff => "unexpected end of data"

end ByteReason

namespace ByteFault

def message (f : ByteFault) : String :=
  let place :=
    if f.width = 1 then
      "byte 0x" ++ hexDigits 2 f.byte.toNat ++ " in position " ++ toString f.place
    else "bytes in position " ++ toString f.place ++ "-" ++ toString (f.place + f.width - 1)
  "'utf-8' codec can't decode " ++ place ++ ": " ++ f.reason.message

end ByteFault

/-- How many bytes follow the first one, and between which bounds the second one lies. -/
def tailOf (b : UInt8) : Option (Nat × UInt8 × UInt8) :=
  if b < 0x80 then some (0, 0x80, 0xBF)
  else if b < 0xC2 then none
  else if b < 0xE0 then some (1, 0x80, 0xBF)
  else if b = 0xE0 then some (2, 0xA0, 0xBF)
  else if b = 0xED then some (2, 0x80, 0x9F)
  else if b < 0xF0 then some (2, 0x80, 0xBF)
  else if b = 0xF0 then some (3, 0x90, 0xBF)
  else if b < 0xF4 then some (3, 0x80, 0xBF)
  else if b = 0xF4 then some (3, 0x80, 0x8F)
  else none

/-- The bytes that continue a character, at most `n` of them. -/
def continuation (lo hi : UInt8) : Nat → List UInt8 → List UInt8
  | 0, _ => []
  | _, [] => []
  | n + 1, b :: bs =>
      if lo ≤ b && b ≤ hi then b :: continuation 0x80 0xBF n bs else []

def charNumber (first : UInt8) (tail : List UInt8) : Nat :=
  let lead := match tail.length with
    | 0 => first.toNat
    | 1 => first.toNat % 0x20
    | 2 => first.toNat % 0x10
    | _ => first.toNat % 0x08
  tail.foldl (fun n b => n * 0x40 + b.toNat % 0x40) lead

inductive ByteReading where
  | char (c : Char) (width : Nat)
  | bad (reason : ByteReason) (width : Nat)

def readByte (b : UInt8) (bs : List UInt8) : ByteReading :=
  match tailOf b with
  | none => .bad .badStart 1
  | some (n, lo, hi) =>
      let tail := continuation lo hi n bs
      if tail.length = n then .char (Char.ofNat (charNumber b tail)) (n + 1)
      else if tail.length = bs.length then .bad .cutOff (tail.length + 1)
      else .bad .badContinuation (tail.length + 1)

/-- The characters up to the first fault, and the bytes from there on. `place` counts the bytes
before. -/
def decodeFrom (place : Nat) : List UInt8 → List Char × Option ByteFault × List UInt8
  | [] => ([], none, [])
  | b :: bs =>
      match readByte b bs with
      | .bad reason width => ([], some ⟨place, width, b, reason⟩, b :: bs)
      | .char c width =>
          let (cs, fault, rest) := decodeFrom (place + width) (bs.drop (width - 1))
          (c :: cs, fault, rest)
termination_by bs => bs.length
decreasing_by
  simp only [List.length_drop, List.length_cons]
  omega

def ofBytes (bs : List UInt8) : Except ByteFault (List Char) :=
  match decodeFrom 0 bs with
  | (cs, none, _) => .ok cs
  | (_, some f, _) => .error f

/-- The text of some bytes, each byte that cannot be read shown by number. -/
def ofBytesShown : List UInt8 → List Char
  | [] => []
  | b :: bs =>
      match readByte b bs with
      | .bad _ _ => ('\\' :: 'x' :: (hexDigits 2 b.toNat).toList) ++ ofBytesShown bs
      | .char c width => c :: ofBytesShown (bs.drop (width - 1))
termination_by bs => bs.length
decreasing_by
  · simp only [List.length_cons]
    omega
  · simp only [List.length_drop, List.length_cons]
    omega

def toBytes (s : String) : List UInt8 := s.toUTF8.toList

/-- What was read of a text that is fetched part by part. -/
structure PartsRead where
  /-- The text of the parts that could be read. -/
  chars : List Char
  fault : Option ByteFault

/-- A fault that more bytes may mend: a character is cut off, or a surrogate is not complete. -/
def ByteFault.mayMend (f : ByteFault) (rest : List UInt8) : Bool :=
  f.reason == .cutOff ||
    match rest with
    | [0xED, b] => 0xA0 ≤ b && b ≤ 0xBF
    | _ => false

/-- Reads parts one after another. A character that a part cuts off is read with the next one, and
places count from what is left over. -/
def readParts (left : List UInt8) : List (List UInt8) → PartsRead
  | [] => match decodeFrom 0 left with
    | (cs, fault, _) => ⟨cs, fault⟩
  | part :: parts =>
      let continued := fun cs rest =>
        let more := readParts rest parts
        { more with chars := cs ++ more.chars }
      match decodeFrom 0 (left ++ part) with
      | (cs, none, rest) => continued cs rest
      | (cs, some f, rest) => if f.mayMend rest then continued cs rest else ⟨[], some f⟩

def partsOf (size : Nat) : Nat → List UInt8 → List (List UInt8)
  | 0, _ => []
  | _, [] => []
  | n + 1, bs => bs.take size :: partsOf size n (bs.drop size)

def partSize : Nat := 8192

def readInParts (bs : List UInt8) : PartsRead := readParts [] (partsOf partSize bs.length bs)

end GoFlow.Text
