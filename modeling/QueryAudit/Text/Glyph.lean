/-
  QueryAudit.Text.Glyph — characters of a byte sequence

  Reading bytes as UTF-8. Every maximal run of bytes that cannot be part of a character becomes one
  replacement character, so every byte sequence has a reading and no byte is dropped: the widths
  of the characters add up to the number of bytes.
-/

namespace QueryAudit.Text

/-- A character together with the number of bytes it was read from. -/
structure Glyph where
  char : Char
  width : Nat
  deriving DecidableEq, Repr

def Glyph.replacement (width : Nat) : Glyph := ⟨'�', width⟩

def isTail (b : UInt8) : Bool := 0x80 ≤ b && b ≤ 0xbf

/-- How many bytes follow a first byte, and the interval the second one lies in; nothing when the
byte starts no character of several bytes. -/
def leadOf? (b : UInt8) : Option (Nat × UInt8 × UInt8) :=
  if 0xc2 ≤ b && b ≤ 0xdf then some (1, 0x80, 0xbf)
  else if b = 0xe0 then some (2, 0xa0, 0xbf)
  else if b = 0xed then some (2, 0x80, 0x9f)
  else if 0xe1 ≤ b && b ≤ 0xef then some (2, 0x80, 0xbf)
  else if b = 0xf0 then some (3, 0x90, 0xbf)
  else if 0xf1 ≤ b && b ≤ 0xf3 then some (3, 0x80, 0xbf)
  else if b = 0xf4 then some (3, 0x80, 0x8f)
  else none

def tailBits (b : UInt8) : Nat := b.toNat % 64

def glyphs : List UInt8 → List Glyph
  | [] => []
  | a :: rest =>
    if a < 0x80 then ⟨Char.ofNat a.toNat, 1⟩ :: glyphs rest
    else match leadOf? a with
      | none => .replacement 1 :: glyphs rest
      | some (count, low, high) =>
        match rest with
        | [] => [.replacement 1]
        | b :: rest₂ =>
          if !(low ≤ b && b ≤ high) then .replacement 1 :: glyphs (b :: rest₂)
          else if count = 1 then
            ⟨Char.ofNat (a.toNat % 32 * 64 + tailBits b), 2⟩ :: glyphs rest₂
          else match rest₂ with
            | [] => [.replacement 2]
            | c :: rest₃ =>
              if !isTail c then .replacement 2 :: glyphs (c :: rest₃)
              else if count = 2 then
                ⟨Char.ofNat ((a.toNat % 16 * 64 + tailBits b) * 64 + tailBits c), 3⟩ :: glyphs rest₃
              else match rest₃ with
                | [] => [.replacement 3]
                | d :: rest₄ =>
                  if !isTail d then .replacement 3 :: glyphs (d :: rest₄)
                  else
                    ⟨Char.ofNat (((a.toNat % 8 * 64 + tailBits b) * 64 + tailBits c) * 64
                      + tailBits d), 4⟩ :: glyphs rest₄

def decode (bytes : ByteArray) : String :=
  String.ofList ((glyphs bytes.data.toList).map Glyph.char)

end QueryAudit.Text
