/-
  EchOS.CLib.Vsprintf

  `x32toa`, `x64toa` and `vsprintf` of `lib/stdio/vsprintf.c`, and `ssfn_printf` of
  `kernel/drivers/ssfn_fb.c`, which prints what `vsprintf` wrote.

  The format is an array that ends with its NUL, `arg` the list of typed arguments
  still to be fetched, and fetching one of another type has no result.  `str` has no
  bound of its own; `written` counts the bytes stored in it, and a caller's buffer is
  far too small for that `int` to overflow.
-/
import EchOS.CLib.Itoa

namespace EchOS

open CArray (Fault read write)

/-- `hex_chars` -/
def hexChars : CString :=
  [ch '0', ch '1', ch '2', ch '3', ch '4', ch '5', ch '6', ch '7', ch '8', ch '9',
   ch 'A', ch 'B', ch 'C', ch 'D', ch 'E', ch 'F']

/-- The loop that `x32toa` and `x64toa` share: the digits from `num >> (4 * left)` down
    to the last one.  No terminator is stored. -/
def xtoa.loop {w : Nat} (num : BitVec w) : (left pos : Nat) → CString → Except Fault CString
  | 0, pos, str => do
      let c ← read hexChars (num &&& BitVec.ofNat w 0xF).toNat
      write str pos c
  | left + 1, pos, str => do
      let c ← read hexChars ((num >>> (4 * (left + 1))) &&& BitVec.ofNat w 0xF).toNat
      let str ← write str pos c
      xtoa.loop num left (pos + 1) str

/-- `x32toa` -/
def x32toa (num : BitVec 32) (str : CString) : Except Fault CString := xtoa.loop num 7 0 str

/-- `x64toa` -/
def x64toa (num : BitVec 64) (str : CString) : Except Fault CString := xtoa.loop num 15 0 str

/-- An argument of a variadic call. -/
inductive VaArg where
  | int (value : BitVec 32)
  | uint64 (value : BitVec 64)
  | string (value : CString)
  deriving Repr, DecidableEq

/-- `va_arg(arg, int)` -/
def vaInt : List VaArg → Except Fault (BitVec 32 × List VaArg)
  | .int value :: arg => .ok (value, arg)
  | _ => .error .badArgument

/-- `va_arg(arg, uint64_t)` -/
def vaUint64 : List VaArg → Except Fault (BitVec 64 × List VaArg)
  | .uint64 value :: arg => .ok (value, arg)
  | _ => .error .badArgument

/-- `va_arg(arg, char *)` -/
def vaString : List VaArg → Except Fault (CString × List VaArg)
  | .string value :: arg => .ok (value, arg)
  | _ => .error .badArgument

/-- The locals of `vsprintf`. -/
structure VsState where
  i : Nat
  arg : List VaArg
  temp : CString
  str : Nat → Byte
  written : Nat

/-- `str[written] = c; written++;` -/
def VsState.put (st : VsState) (c : Byte) : VsState :=
  { st with str := Function.update st.str st.written c, written := st.written + 1 }

/-- The loops that copy a string to `str`. -/
def VsState.putString (st : VsState) (s : CString) : Except Fault VsState := do
  let length ← strlen s
  .ok ((s.take length).foldl VsState.put st)

/-- The switch on the character after a '%'. -/
def vsprintf.directive (format : CString) (st : VsState) : Except Fault VsState := do
  let c ← read format st.i
  if c = ch 'c' then do
    let value ← vaInt st.arg
    .ok ({ st with i := st.i + 1, arg := value.2 }.put (value.1.setWidth 8))
  else if c = ch 'd' then do
    let value ← vaInt st.arg
    let temp ← itoa value.1 st.temp 10#32
    { st with i := st.i + 1, arg := value.2, temp }.putString temp
  else if c = ch 'x' then do
    let value ← vaInt st.arg
    let temp ← x32toa value.1 st.temp
    { st with i := st.i + 1, arg := value.2, temp }.putString temp
  else if c = ch 'l' then do
    -- long
    let c ← read format (st.i + 1)
    if c = ch 'l' then do
      -- long long
      let c ← read format (st.i + 2)
      if c = ch 'x' then do
        let value ← vaUint64 st.arg
        let temp ← x64toa value.1 st.temp
        { st with i := st.i + 3, arg := value.2, temp }.putString temp
      else .ok { st with i := st.i + 2 }
    else .ok { st with i := st.i + 1 }
  else if c = ch 's' then do
    let value ← vaString st.arg
    { st with i := st.i + 1, arg := value.2 }.putString value.1
  else .ok st

/-- The loop body up to there: a '%' and its switch. -/
def vsprintf.special (format : CString) (st : VsState) : Except Fault VsState := do
  let c ← read format st.i
  if c = ch '%' then vsprintf.directive format { st with i := st.i + 1 } else .ok st

/-- The rest of the loop body: the next character of the format is copied as it is. -/
def vsprintf.copyNext (format : CString) (st : VsState) : Except Fault VsState := do
  let c ← read format st.i
  .ok { st.put c with i := st.i + 1 }

/-- The loop of `vsprintf`. -/
def vsprintf.loop (format : CString) : (fuel : Nat) → VsState → Except Fault VsState
  | 0, _ => .error .outOfFuel
  | fuel + 1, st => do
      let length ← strlen format
      if st.i < length then do
        let st ← vsprintf.special format st
        let st ← vsprintf.copyNext format st
        vsprintf.loop format fuel st
      else .ok st

/-- `vsprintf`: `str` as it is left, and the count returned.  Every turn of the loop
    advances `i`, so there are no more turns than the format has bytes. -/
def vsprintf (str : Nat → Byte) (format : CString) (arg : List VaArg) :
    Except Fault ((Nat → Byte) × Nat) := do
  let st ← vsprintf.loop format format.length
    { i := 0, arg, temp := List.replicate 32 0#8, str, written := 0 }
  .ok (st.str, st.written)

/-- `ssfn_printf`: the characters put on the screen, and the count returned. -/
def ssfnPrintf (format : CString) (arg : List VaArg) : Except Fault (List Byte × Nat) := do
  let output ← vsprintf (fun _ => 0#8) format arg
  if output.2 > 1024 then .error .outOfBounds
  else .ok ((List.range output.2).map output.1, output.2 + 1)

end EchOS
