/-
  EchOS.CLib.Itoa

  `reverse_string` and `itoa` of `lib/string/itoa.c`.

  `reverse_string` copies its string to a local array that is one byte too short
  for the terminator; `slack` bytes of stack behind the array take what is written
  past its end.
-/
import EchOS.CLib.String

namespace EchOS

open CArray (Fault read write overlay)

/-- The loop of `reverse_string`, with `left` bytes of `temp` to go. -/
def reverseString.loop (temp : CString) : (left c1 : Nat) → CString → Except Fault CString
  | 0, _, s => .ok s
  | left + 1, c1, s => do
      let c ← read temp left
      let s ← write s c1 c
      reverseString.loop temp left (c1 + 1) s

/-- `reverse_string`, for a string that is not empty. -/
def reverseString (slack : Nat) (s : CString) : Except Fault CString := do
  let length ← strlen s
  if length = 0 then .error .outOfBounds
  else
    let temp ← strcpy (List.replicate (length + slack) 0#8) s
    reverseString.loop temp length 0 s

/-- The loop of `itoa`: the digits, the last one first. -/
def itoa.loop (base : BitVec 32) :
    (fuel : Nat) → (num : BitVec 32) → (pos : Nat) → CString → Except Fault (Nat × CString)
  | 0, _, _, _ => .error .outOfFuel
  | fuel + 1, num, pos, str =>
      if num = 0#32 then .ok (pos, str)
      else do
        let value := num.srem base
        let str ← write str pos ((value + (ch '0').zeroExtend 32).setWidth 8)
        itoa.loop base fuel (num.sdiv base) (pos + 1) str

/-- `itoa`, with what it leaves in `str`. -/
def itoa (num : BitVec 32) (str : CString) (base : BitVec 32) : Except Fault CString :=
  if num = 0#32 then strcpy str [ch '0', 0#8, 0#8]
  else do
    let negative := num.slt 0#32 && base == 10#32
    let num := if negative then -num else num
    let digits ← itoa.loop base 33 num 0 str
    let pos := if negative then digits.1 + 1 else digits.1
    let str ← if negative then write digits.2 digits.1 (ch '-') else .ok digits.2
    let str ← write str pos 0#8
    reverseString 1 str

end EchOS
