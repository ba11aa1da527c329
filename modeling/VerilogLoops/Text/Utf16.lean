/-!
# Codes of UTF-16

An escape in a text may give a character by its code in UTF-16. A character beyond the first sixteen
bits has two codes, a high one and a low one.
-/

namespace VerilogLoops.Text

/-- The first of the two codes of a character beyond the first sixteen bits. -/
def isHighUnit (n : Nat) : Bool :=
  0xd800 ≤ n && n < 0xdc00

/-- The second of the two codes of a character beyond the first sixteen bits. -/
def isLowUnit (n : Nat) : Bool :=
  0xdc00 ≤ n && n < 0xe000

/-- The character of a code point. Half of a pair on its own becomes the replacement character. -/
def characterOf (n : Nat) : Char :=
  if isHighUnit n || isLowUnit n then '\ufffd' else Char.ofNat n

/-- The character of two codes. -/
def joinedUnits (high low : Nat) : Char :=
  Char.ofNat (0x10000 + (high - 0xd800) * 0x400 + (low - 0xdc00))

/-- The codes of a character beyond the first sixteen bits give the character. -/
theorem joinedUnits_split {n : Nat} (h : 0x10000 ≤ n) :
    joinedUnits (0xd800 + (n - 0x10000) / 0x400) (0xdc00 + (n - 0x10000) % 0x400)
      = Char.ofNat n := by
  have : 0x10000 + (0xd800 + (n - 0x10000) / 0x400 - 0xd800) * 0x400
      + (0xdc00 + (n - 0x10000) % 0x400 - 0xdc00) = n := by omega
  rw [joinedUnits, this]

/-- The code of a character is none of the codes that come in pairs. -/
theorem toNat_valid (c : Char) : c.toNat < 0xd800 ∨ (0xe000 ≤ c.toNat ∧ c.toNat < 0x110000) := by
  have h := c.valid
  simp only [UInt32.isValidChar, Nat.isValidChar] at h
  simp only [Char.toNat]
  omega

theorem isHighUnit_toNat (c : Char) : isHighUnit c.toNat = false := by
  have := toNat_valid c
  simp [isHighUnit]
  omega

theorem isLowUnit_toNat (c : Char) : isLowUnit c.toNat = false := by
  have := toNat_valid c
  simp [isLowUnit]
  omega

/-- The code of a character gives the character. -/
theorem characterOf_toNat (c : Char) : characterOf c.toNat = c := by
  simp [characterOf, isHighUnit_toNat, isLowUnit_toNat]

end VerilogLoops.Text
