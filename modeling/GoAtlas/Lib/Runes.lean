import GoAtlas.Lib.Hex

/-!
# Runes of UTF-8

A string of bytes is read as runes: ASCII bytes, longer runes, and bytes that belong to no rune of
UTF-8, which all read as U+FFFD.
-/

namespace GoAtlas.Lib.Runes

inductive Rune where
  | ascii (a : UInt8)
  /-- The bytes of a rune of two bytes or more. -/
  | wide (bs : Bytes)
  /-- A byte that belongs to no rune; which one it was is not kept. -/
  | bad
  deriving DecidableEq

def continues (b : UInt8) : Bool := 0x80 ≤ b && b ≤ 0xBF

/-- The second byte of a rune of three or four bytes, whose range depends on the first. -/
def second (a b : UInt8) : Bool :=
  (if a = 0xE0 then 0xA0 else if a = 0xF0 then 0x90 else 0x80) ≤ b &&
    b ≤ (if a = 0xED then 0x9F else if a = 0xF4 then 0x8F else 0xBF)

/-- The rune of two bytes or more at the head, and what follows it. -/
def wide? : Bytes → Option (Bytes × Bytes)
  | a :: b :: rest =>
    if 0xC2 ≤ a ∧ a ≤ 0xDF then
      if continues b then some ([a, b], rest) else none
    else if 0xE0 ≤ a ∧ a ≤ 0xEF then
      match rest with
      | c :: rest => if second a b && continues c then some ([a, b, c], rest) else none
      | [] => none
    else if 0xF0 ≤ a ∧ a ≤ 0xF4 then
      match rest with
      | c :: d :: rest =>
        if second a b && continues c && continues d then some ([a, b, c, d], rest) else none
      | _ => none
    else none
  | _ => none

/-- The runes of a string; `n` bounds its length. -/
def runesOf : Nat → Bytes → List Rune
  | 0, _ => []
  | _, [] => []
  | n + 1, a :: s =>
    if a < 128 then .ascii a :: runesOf n s
    else
      match wide? (a :: s) with
      | some (bs, rest) => .wide bs :: runesOf n rest
      | none => .bad :: runesOf n s

def runes (s : Bytes) : List Rune := runesOf s.length s

namespace Rune

/-- The bytes that a rune is read back as: those of U+FFFD for a byte that belongs to none. -/
def bytes : Rune → Bytes
  | ascii a => [a]
  | wide bs => bs
  | bad => [0xEF, 0xBF, 0xBD]

end Rune

end GoAtlas.Lib.Runes
