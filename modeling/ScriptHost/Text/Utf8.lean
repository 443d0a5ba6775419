/-!
# Texts from bytes

Bytes that come from outside need not be well-formed UTF-8. They are read so that every well-formed character is kept and
every longest beginning of a character that is not continued is replaced by one U+FFFD.
-/

namespace ScriptHost.Utf8

/-- The character that stands for bytes that are no text. -/
def replacement : Char := '\uFFFD'

/-- The byte has the form of a continuation byte. -/
def isContinuation (b : UInt8) : Bool := b.toNat / 64 == 2

/-- The second byte may follow the first byte of a character of three bytes: neither an overlong form nor a surrogate. -/
def followsThree (a b : UInt8) : Bool :=
  isContinuation b && (a != 0xE0 || decide (0xA0 ≤ b)) && (a != 0xED || decide (b ≤ 0x9F))

/-- The second byte may follow the first byte of a character of four bytes: neither an overlong form nor a code beyond
U+10FFFF. -/
def followsFour (a b : UInt8) : Bool :=
  isContinuation b && (a != 0xF0 || decide (0x90 ≤ b)) && (a != 0xF4 || decide (b ≤ 0x8F))

/-- The value bits of a continuation byte. -/
def tail (b : UInt8) : Nat := b.toNat % 64

/-- The characters of a list of bytes, each longest incomplete beginning replaced. -/
def decodeChars : List UInt8 → List Char
  | [] => []
  | a :: rest =>
    if a < 0x80 then Char.ofNat a.toNat :: decodeChars rest
    else if 0xC2 ≤ a ∧ a ≤ 0xDF then
      match rest with
      | b :: rest2 =>
        if isContinuation b then Char.ofNat (a.toNat % 32 * 64 + tail b) :: decodeChars rest2
        else replacement :: decodeChars (b :: rest2)
      | [] => [replacement]
    else if 0xE0 ≤ a ∧ a ≤ 0xEF then
      match rest with
      | b :: rest2 =>
        if followsThree a b then
          match rest2 with
          | c :: rest3 =>
            if isContinuation c then
              Char.ofNat ((a.toNat % 16 * 64 + tail b) * 64 + tail c) :: decodeChars rest3
            else replacement :: decodeChars (c :: rest3)
          | [] => [replacement]
        else replacement :: decodeChars (b :: rest2)
      | [] => [replacement]
    else if 0xF0 ≤ a ∧ a ≤ 0xF4 then
      match rest with
      | b :: rest2 =>
        if followsFour a b then
          match rest2 with
          | c :: rest3 =>
            if isContinuation c then
              match rest3 with
              | d :: rest4 =>
                if isContinuation d then
                  Char.ofNat (((a.toNat % 8 * 64 + tail b) * 64 + tail c) * 64 + tail d) :: decodeChars rest4
                else replacement :: decodeChars (d :: rest4)
              | [] => [replacement]
            else replacement :: decodeChars (c :: rest3)
          | [] => [replacement]
        else replacement :: decodeChars (b :: rest2)
      | [] => [replacement]
    else replacement :: decodeChars rest

/-- The text of a list of bytes. -/
def decode (bytes : List UInt8) : String := String.ofList (decodeChars bytes)

/-- The bytes of a text, character by character. -/
def encode (s : String) : List UInt8 := s.toList.flatMap String.utf8EncodeChar

end ScriptHost.Utf8
