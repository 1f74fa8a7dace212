/-!
# UTF-8

Bytes of a text, and the text of arbitrary bytes.

## Design Notes

One replacement character stands for one maximal part that starts a well-formed character and
breaks off.  The table of lead bytes therefore carries the range that the second byte must be in:
it rules out overlong forms, surrogates and code points past the last one.
-/

namespace StackScript.Utf8

/-- What a lead byte promises. -/
structure Lead where
  /-- Number of bytes that follow. -/
  more : Nat
  /-- Least second byte. -/
  low : Nat
  /-- Greatest second byte. -/
  high : Nat
  /-- Bits of the code point in the lead byte. -/
  bits : Nat
  deriving DecidableEq, Repr

/-- The promise of a byte of value 128 or more, if it may lead a character. -/
def lead? (b : Nat) : Option Lead :=
  if b < 0xc2 then none
  else if b < 0xe0 then some ⟨1, 0x80, 0xbf, b - 0xc0⟩
  else if b = 0xe0 then some ⟨2, 0xa0, 0xbf, 0⟩
  else if b = 0xed then some ⟨2, 0x80, 0x9f, 13⟩
  else if b < 0xf0 then some ⟨2, 0x80, 0xbf, b - 0xe0⟩
  else if b = 0xf0 then some ⟨3, 0x90, 0xbf, 0⟩
  else if b < 0xf4 then some ⟨3, 0x80, 0xbf, b - 0xf0⟩
  else if b = 0xf4 then some ⟨3, 0x80, 0x8f, 4⟩
  else none

/-- The bytes of a text. -/
def encode (s : String) : List UInt8 :=
  s.toList.flatMap String.utf8EncodeChar

/-- Stands for bytes that are no character. -/
def replacement : Char :=
  Char.ofNat 0xfffd

/-- Whether a byte continues a character. -/
def continues (b : UInt8) : Bool :=
  0x80 ≤ b.toNat && b.toNat ≤ 0xbf

/-- The characters of any bytes. -/
def decodeChars : List UInt8 → List Char
  | [] => []
  | b :: rest =>
    if b.toNat < 0x80 then Char.ofNat b.toNat :: decodeChars rest
    else
      match lead? b.toNat with
      | none => replacement :: decodeChars rest
      | some l =>
        match rest with
        | [] => [replacement]
        | b₁ :: rest₁ =>
          if b₁.toNat < l.low || l.high < b₁.toNat then replacement :: decodeChars (b₁ :: rest₁)
          else if l.more = 1 then
            Char.ofNat (l.bits * 64 + b₁.toNat % 64) :: decodeChars rest₁
          else
            match rest₁ with
            | [] => [replacement]
            | b₂ :: rest₂ =>
              if !continues b₂ then replacement :: decodeChars (b₂ :: rest₂)
              else if l.more = 2 then
                Char.ofNat ((l.bits * 64 + b₁.toNat % 64) * 64 + b₂.toNat % 64)
                  :: decodeChars rest₂
              else
                match rest₂ with
                | [] => [replacement]
                | b₃ :: rest₃ =>
                  if !continues b₃ then replacement :: decodeChars (b₃ :: rest₃)
                  else
                    Char.ofNat
                      (((l.bits * 64 + b₁.toNat % 64) * 64 + b₂.toNat % 64) * 64 + b₃.toNat % 64)
                      :: decodeChars rest₃

/-- The text of any bytes; what is not UTF-8 becomes the replacement character. -/
def decodeLossy (bs : List UInt8) : String :=
  String.ofList (decodeChars bs)

/-- The text whose bytes these are, if there is one. -/
def decode? (bs : List UInt8) : Option String :=
  let s := decodeLossy bs
  if encode s = bs then some s else none

end StackScript.Utf8
