import Pico2wTfm.Support.Bytes

/-!
# Log — Printf

The raw log (`tfm_log_raw.c`).  A string is the memory from its first byte on, and a pointer into it
what is left of that memory; reading past its end is a fault, as are a store outside an array and an
argument that is not there.  `stdio_output_string` is a function of the board, known by what it is
handed and what it returns for that.

An `int` is the word that holds it, and its arithmetic wraps around.
-/

namespace Log
open Bytes (Byte)

/-- A character constant. -/
def ch (c : Char) : Byte := BitVec.ofNat 8 c.toNat

/-- A string literal, with its terminator. -/
def literal (s : String) : List Byte := s.toList.map ch ++ [0]

def printBuffSize : Nat := 32
def numBuffSize : Nat := 12

/-- What the language leaves undefined. -/
inductive Fault where
  | store | load | argument
deriving DecidableEq, Repr

/-- `struct formatted_buffer_t`. -/
structure FormattedBuffer where
  pos : Nat
  buf : Vector Byte printBuffSize
deriving DecidableEq

/-- The buffer, and what was handed to `stdio_output_string`. -/
structure Output where
  pb : FormattedBuffer
  printed : List (List Byte)
deriving DecidableEq

abbrev Act := StateT Output (Except Fault)

def hexDigitsLo : Vector Byte 16 :=
  #v[ch '0', ch '1', ch '2', ch '3', ch '4', ch '5', ch '6', ch '7',
    ch '8', ch '9', ch 'a', ch 'b', ch 'c', ch 'd', ch 'e', ch 'f']

def hexDigitsUp : Vector Byte 16 :=
  #v[ch '0', ch '1', ch '2', ch '3', ch '4', ch '5', ch '6', ch '7',
    ch '8', ch '9', ch 'A', ch 'B', ch 'C', ch 'D', ch 'E', ch 'F']

/-- `_tfm_flush_formatted_buffer`. -/
def tfmFlushFormattedBuffer (data : Byte) : Act Unit := do
  let s ← get
  if h : s.pb.pos < printBuffSize then
    let buf := s.pb.buf.set s.pb.pos data
    let pos := s.pb.pos + 1
    if printBuffSize ≤ pos then set (⟨⟨0, buf⟩, s.printed ++ [buf.toList]⟩ : Output)
    else set (⟨⟨pos, buf⟩, s.printed⟩ : Output)
  else throw .store

/-- The loop of `_tfm_string_output`. -/
def stringLoop : List Byte → BitVec 32 → Act (BitVec 32)
  | [], _ => throw .load
  | c :: str, count =>
      if c ≠ 0 then do
        tfmFlushFormattedBuffer c
        stringLoop str (count + 1)
      else return count

/-- `_tfm_string_output`. -/
def tfmStringOutput (str : List Byte) : Act (BitVec 32) := stringLoop str 0

/-! ### Numbers -/

/-- The loops that write the digits of a number into `num_buff`, from the last to the first. -/
def numDigits (digit : BitVec 32 → Byte) (next : BitVec 32 → BitVec 32) (number : BitVec 32)
    (numBuff : Vector Byte numBuffSize) (k : Nat) :
    Except Fault (Vector Byte numBuffSize × Nat) :=
  if h : k < numBuffSize then
    let numBuff := numBuff.set k (digit number)
    if next number ≠ 0 then numDigits digit next (next number) numBuff (k + 1)
    else .ok (numBuff, k + 1)
  else .error .store
termination_by numBuffSize - k

/-- The loops that print `num_buff` from its last digit on. -/
def numLoop (numBuff : Vector Byte numBuffSize) : Nat → BitVec 32 → Act (BitVec 32)
  | 0, count => return count
  | k + 1, count => do
      if h : k < numBuffSize then
        tfmFlushFormattedBuffer numBuff[k]
        numLoop numBuff k (count + 1)
      else throw .load

/-- What `_tfm_dec_num_output` and `_tfm_hex_num_output` do with a number. -/
def numOutput (digit : BitVec 32 → Byte) (next : BitVec 32 → BitVec 32) (number : BitVec 32)
    (count : BitVec 32) : Act (BitVec 32) := do
  let r ← liftM (numDigits digit next number (Vector.replicate numBuffSize 0) 0)
  numLoop r.1 r.2 count

def decDigit (number : BitVec 32) : Byte := (48 + number % 10).setWidth 8

/-- `_tfm_dec_num_output`. -/
def tfmDecNumOutput (num : BitVec 32) (sign : Byte) : Act (BitVec 32) := do
  if sign = ch 'd' ∧ num.toInt < 0 then
    tfmFlushFormattedBuffer (ch '-')
    numOutput decDigit (· / 10) (-num) 1
  else numOutput decDigit (· / 10) num 0

theorem and_lt (number : BitVec 32) : (number &&& 0x0f).toNat < 16 :=
  Nat.lt_of_le_of_lt Nat.and_le_right (by decide)

def hexDigit (hexDigits : Vector Byte 16) (number : BitVec 32) : Byte :=
  hexDigits.get ⟨(number &&& 0x0f).toNat, and_lt number⟩

/-- `_tfm_hex_num_output`. -/
def tfmHexNumOutput (num : BitVec 32) (hexDigits : Vector Byte 16) : Act (BitVec 32) :=
  numOutput (hexDigit hexDigits) (· >>> 4) num 0

/-! ### Formats -/

/-- An argument, of four bytes or a string. -/
inductive Arg where
  | word (w : BitVec 32)
  | str (mem : List Byte)
deriving DecidableEq, Repr

/-- `va_arg(ap, int32_t)` and `va_arg(ap, uint32_t)`. -/
def vaWord : List Arg → Except Fault (BitVec 32 × List Arg)
  | .word w :: ap => .ok (w, ap)
  | _ => .error .argument

/-- `va_arg(ap, char*)`. -/
def vaStr : List Arg → Except Fault (List Byte × List Arg)
  | .str mem :: ap => .ok (mem, ap)
  | _ => .error .argument

/-- The cases of the `switch`, with what is left of the arguments; `none` is `default`. -/
def tagOutput (tag : Byte) (ap : List Arg) : Option (Act (BitVec 32 × List Arg)) :=
  if tag = ch 'd' ∨ tag = ch 'i' then some do
    let (num, ap) ← vaWord ap
    return (← tfmDecNumOutput num (ch 'd'), ap)
  else if tag = ch 'u' then some do
    let (num, ap) ← vaWord ap
    return (← tfmDecNumOutput num (ch 'u'), ap)
  else if tag = ch 'x' then some do
    let (num, ap) ← vaWord ap
    return (← tfmHexNumOutput num hexDigitsLo, ap)
  else if tag = ch 'X' then some do
    let (num, ap) ← vaWord ap
    return (← tfmHexNumOutput num hexDigitsUp, ap)
  else if tag = ch 'p' then some do
    let count ← tfmStringOutput (literal "0x")
    let (num, ap) ← vaWord ap
    return (count + (← tfmHexNumOutput num hexDigitsLo), ap)
  else if tag = ch 's' then some do
    let (str, ap) ← vaStr ap
    return (← tfmStringOutput str, ap)
  else if tag = ch 'c' then some do
    let (c, ap) ← vaWord ap
    tfmFlushFormattedBuffer (c.setWidth 8)
    return (1, ap)
  else if tag = ch '%' then some do
    tfmFlushFormattedBuffer (ch '%')
    return (1, ap)
  else none

/-- The loop of `_tfm_log_vprintf`.  After an unsupported tag it goes on at the tag itself, which may
be the terminator. -/
def formatLoop : List Byte → List Arg → BitVec 32 → Act (BitVec 32)
  | [], _, _ => throw .load
  | c :: fmt, ap, count =>
      if c = 0 then return count
      else if c = ch '%' then
        match fmt with
        | [] => throw .load
        | tag :: rest =>
            match tagOutput tag ap with
            | some output => do
                let (n, ap) ← output
                formatLoop rest ap (count + n)
            | none => do
                let n ← tfmStringOutput (literal "[Unsupported Tag]")
                formatLoop (tag :: rest) ap (count + n)
      else do
        tfmFlushFormattedBuffer c
        formatLoop fmt ap (count + 1)

section Printf

variable (stdioOutputString : List Byte → BitVec 32) (buf : Vector Byte printBuffSize)

/-- `_tfm_log_vprintf`: what it returns, and what it hands to `stdio_output_string`.  `buf` is what
the stack holds where the buffer lies. -/
def tfmLogVprintf (fmt : List Byte) (ap : List Arg) :
    Except Fault (BitVec 32 × List (List Byte)) := do
  let (count, s) ← (formatLoop fmt ap 0).run ⟨⟨0, buf⟩, []⟩
  if s.pb.pos ≠ 0 then
    let last := s.pb.buf.toList.take s.pb.pos
    return (count + stdioOutputString last, s.printed ++ [last])
  else return (count, s.printed)

/-- `tfm_log_printf`. -/
def tfmLogPrintf (fmt : List Byte) (args : List Arg) :
    Except Fault (BitVec 32 × List (List Byte)) := tfmLogVprintf stdioOutputString buf fmt args

end Printf

end Log
