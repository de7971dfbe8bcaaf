import Pico2wTfm.Support.Bytes

/-!
# Tools — Uf2

`uf2conv.py`: the images that are built are converted to UF2 before they are flashed.  A UF2 file is a
row of blocks of 512 bytes; each block says where its data goes.  The tool makes such files of binary
files and of Intel HEX files, and takes them apart again.

A conversion that ends with an exception is `none`.  The globals `appstartaddr` and `familyid` are
arguments, and results where a conversion sets them.
-/

namespace Uf2
open Bytes

def uf2MagicStart0 : Nat := 0x0A324655
def uf2MagicStart1 : Nat := 0x9E5D5157
def uf2MagicEnd : Nat := 0x0AB16F30

/-- `struct.pack` of one `I`. -/
def pack32 (n : Int) : Option (List Byte) :=
  if 0 ≤ n ∧ n < 2 ^ 32 then some (leBytes 4 n.toNat) else none

/-- The word `i` of a block, by `struct.unpack`. -/
def word (block : List Byte) (i : Nat) : Nat := leValue ((block.drop (4 * i)).take 4)

/-- `is_uf2`, which needs eight bytes to look at. -/
def isUf2 (buf : List Byte) : Option Bool :=
  if buf.length < 8 then none
  else some (word buf 0 = uf2MagicStart0 ∧ word buf 1 = uf2MagicStart1)

/-! ### To UF2 -/

/-- The flags of a block: the family is given, or not. -/
def flagsOf (familyid : Int) : Int := if familyid = 0 then 0x0 else 0x2000

/-- The eight words of a block. -/
def blockHeader (familyid addr : Int) (blockno numblocks : Nat) : Option (List Byte) := do
  let m₀ ← pack32 uf2MagicStart0
  let m₁ ← pack32 uf2MagicStart1
  let flags ← pack32 (flagsOf familyid)
  let target ← pack32 addr
  let size ← pack32 256
  let no ← pack32 blockno
  let num ← pack32 numblocks
  let family ← pack32 familyid
  return m₀ ++ m₁ ++ flags ++ target ++ size ++ no ++ num ++ family

/-- `datapadding`. -/
def dataPadding : List Byte := List.replicate (512 - 256 - 32 - 4) 0

/-- `convert_to_uf2`. -/
def convertToUf2 (appstartaddr familyid : Int) (fileContent : List Byte) : Option (List Byte) := do
  let numblocks := (fileContent.length + 255) / 256
  let outp ← (List.range numblocks).mapM fun blockno => do
    let ptr := 256 * blockno
    let chunk := (fileContent.drop ptr).take 256
    let hd ← blockHeader familyid (ptr + appstartaddr) blockno numblocks
    let chunk := chunk ++ List.replicate (256 - chunk.length) 0
    let magic ← pack32 uf2MagicEnd
    return hd ++ chunk ++ dataPadding ++ magic
  return outp.flatten

/-! ### From UF2 -/

/-- The variables of the loop of `convert_from_uf2`. -/
structure Reader where
  appstartaddr : Int
  curraddr : Option Nat
  currfamilyid : Option Nat
  /-- Each family with its lowest address. -/
  familiesFound : List (Nat × Nat)
  outp : List Byte
deriving DecidableEq, Repr

/-- Bit `0x2000` of the flags: the block names a family. -/
def flagged (block : List Byte) : Bool := (word block 2).testBit 13

/-- `families_found`, with a block of the family `id` at `newaddr`. -/
def found (families : List (Nat × Nat)) (id newaddr : Nat) : List (Nat × Nat) :=
  if families.any (fun p => p.1 == id) then
    families.map fun p => if p.1 = id ∧ newaddr < p.2 then (id, newaddr) else p
  else families ++ [(id, newaddr)]

/-- The address that a block goes on from, and what else is set where it starts anew: at the first
block, and at a new family. -/
def Reader.turn (familyid : Int) (block : List Byte) (r : Reader) : Reader :=
  let newaddr := word block 3
  let r := if flagged block = true ∧ r.currfamilyid = none then
      { r with currfamilyid := some (word block 7) }
    else r
  if r.curraddr = none ∨ (flagged block = true ∧ some (word block 7) ≠ r.currfamilyid) then
    { r with
      currfamilyid := some (word block 7)
      curraddr := some newaddr
      appstartaddr := if familyid = 0 ∨ familyid = word block 7 then (newaddr : Int)
        else r.appstartaddr }
  else r

/-- The data of a block, if it is of the family that is asked for. -/
def wanted (familyid : Int) (block : List Byte) : List Byte :=
  if familyid = 0 ∨ (flagged block = true ∧ familyid = word block 7) then
    (block.drop 32).take (word block 4)
  else []

/-- The longest gap that is filled. -/
def maxPadding : Nat := 10 * 1024 * 1024

/-- The gap up to a block, if it may be filled: none of the three assertions fails. -/
def paddingOf (curraddr newaddr : Nat) : Option Nat :=
  if newaddr < curraddr then none
  else if maxPadding < newaddr - curraddr then none
  else if (newaddr - curraddr) % 4 ≠ 0 then none
  else some (newaddr - curraddr)

/-- One block.  A block with a bad magic is to be skipped with a message, but the message adds a text
and a number, which raises an exception. -/
def Reader.block (familyid : Int) (block : List Byte) (last : Bool) (r : Reader) : Option Reader :=
  if word block 0 ≠ uf2MagicStart0 ∨ word block 1 ≠ uf2MagicStart1 then none
  else if (word block 2).testBit 0 = true then some r
  else if 476 < word block 4 then none
  else do
    let newaddr := word block 3
    let r := r.turn familyid block
    let padding ← paddingOf (r.curraddr.getD newaddr) newaddr
    let r := { r with
      outp := r.outp ++ List.replicate padding 0 ++ wanted familyid block
      curraddr := some (newaddr + word block 4)
      familiesFound := if flagged block = true then found r.familiesFound (word block 7) newaddr
        else r.familiesFound }
    -- several families, and none is asked for
    if last = true ∧ 1 < r.familiesFound.length ∧ familyid = 0 then
      some { r with outp := [], appstartaddr := 0 }
    else some r

/-- The loop, over the blocks that are left. -/
def Reader.blocks (familyid : Int) : List (List Byte) → Reader → Option Reader
  | [], r => some r
  | block :: rest, r => (r.block familyid block rest.isEmpty).bind (Reader.blocks familyid rest)

/-- The whole blocks of a file; what is left over is ignored. -/
def blocksOf (buf : List Byte) : List (List Byte) :=
  (List.range (buf.length / 512)).map fun blockno => (buf.drop (blockno * 512)).take 512

/-- `convert_from_uf2`: the data, and the new `appstartaddr`. -/
def convertFromUf2 (appstartaddr familyid : Int) (buf : List Byte) : Option (List Byte × Int) :=
  ((⟨appstartaddr, none, none, [], []⟩ : Reader).blocks familyid (blocksOf buf)).map fun r =>
    (r.outp, r.appstartaddr)

/-! ### From Intel HEX -/

/-- The bytes that `is_hex` accepts. -/
def isHexByte (b : Byte) : Bool :=
  b == 0x3A || (0x30 ≤ b && b ≤ 0x39) || (0x61 ≤ b && b ≤ 0x66) || (0x41 ≤ b && b ≤ 0x46) ||
    b == 0x0D || b == 0x0A

/-- `is_hex`, for a buffer that is not empty.  Text of these bytes always decodes. -/
def isHex (buf : List Byte) : Bool := buf.head? == some 0x3A && buf.all isHexByte

def hexDigit (b : Byte) : Option Nat :=
  if 0x30 ≤ b ∧ b ≤ 0x39 then some (b.toNat - 0x30)
  else if 0x61 ≤ b ∧ b ≤ 0x66 then some (b.toNat - 0x61 + 10)
  else if 0x41 ≤ b ∧ b ≤ 0x46 then some (b.toNat - 0x41 + 10)
  else none

/-- `int` of two characters of such a text; a carriage return is white space. -/
def hexPair (a b : Byte) : Option Nat :=
  if a = 0x0D then hexDigit b
  else if b = 0x0D then hexDigit a
  else (hexDigit a).bind fun m => (hexDigit b).map fun n => 16 * m + n

/-- The numbers of a line, behind its colon. -/
def recordOf : List Byte → Option (List Nat)
  | a :: b :: line => (hexPair a b).bind fun n => (recordOf line).map (n :: ·)
  | _ => some []

/-- A `Block`: 256 bytes for an address. -/
structure Block where
  addr : Nat
  bytes : List Byte
  length_eq : bytes.length = 256
deriving DecidableEq

namespace Block

/-- A `Block` of `0xFF`. -/
def new (addr : Nat) : Block := ⟨addr, List.replicate 256 0xFF, List.length_replicate⟩

def set (b : Block) (i : Nat) (v : Byte) : Block :=
  ⟨b.addr, b.bytes.set i v, List.length_set.trans b.length_eq⟩

/-- `Block.encode`. -/
def encode (familyid : Int) (b : Block) (blockno numblocks : Nat) : Option (List Byte) := do
  let hd ← blockHeader familyid b.addr blockno numblocks
  let hd := hd ++ b.bytes.take 256
  let hd := hd ++ List.replicate (512 - 4 - hd.length) 0
  let magic ← pack32 uf2MagicEnd
  return hd ++ magic

end Block

/-- The start of the 256 bytes with an address. -/
def pageOf (addr : Nat) : Nat := addr / 256 * 256

/-- One byte of a data record.  The current block is the last one. -/
def putByte (blocks : List Block) (addr : Nat) (v : Byte) : List Block :=
  match blocks.getLast? with
  | some currblock =>
      if pageOf currblock.addr = pageOf addr then
        blocks.dropLast ++ [currblock.set (addr % 256) v]
      else blocks ++ [(Block.new (pageOf addr)).set (addr % 256) v]
  | none => [(Block.new (pageOf addr)).set (addr % 256) v]

/-- The bytes of a data record. -/
def putBytes : List Block → Nat → List Nat → List Block
  | blocks, _, [] => blocks
  | blocks, addr, v :: vs => putBytes (putByte blocks addr (BitVec.ofNat 8 v)) (addr + 1) vs

/-- The variables of the loop of `convert_from_hex_to_uf2`. -/
structure HexState where
  appstartaddr : Option Nat
  upper : Nat
  blocks : List Block
deriving DecidableEq

/-- The two bytes of a record from `i` on, as a number. -/
def field (record : List Nat) (i : Nat) : Option Nat := do
  let hi ← record[i]?
  let lo ← record[i + 1]?
  return hi * 2 ^ 8 + lo

/-- The loop, over the lines that are left. -/
def hexLines : List (List Byte) → HexState → Option HexState
  | [], st => some st
  | line :: rest, st => do
    let c ← line.head?
    if c ≠ 0x3A then hexLines rest st
    else
      let record ← recordOf line.tail
      let tp ← record[3]?
      if tp = 4 then
        let upper ← field record 4
        hexLines rest { st with upper := upper * 2 ^ 16 }
      else if tp = 2 then
        let upper ← field record 4
        hexLines rest { st with upper := upper * 2 ^ 4 }
      else if tp = 1 then some st
      else if tp = 0 then
        let offset ← field record 1
        let addr := st.upper + offset
        hexLines rest { st with
          appstartaddr := some (st.appstartaddr.getD addr)
          blocks := putBytes st.blocks addr (record.drop 4).dropLast }
      else hexLines rest st

/-- `convert_from_hex_to_uf2`: the file, and the new `appstartaddr`, if there is one. -/
def convertFromHexToUf2 (familyid : Int) (buf : List Byte) : Option (List Byte × Option Nat) := do
  let st ← hexLines (buf.splitOn 0x0A) ⟨none, 0, []⟩
  let resfile ← st.blocks.zipIdx.mapM fun b => b.1.encode familyid b.2 st.blocks.length
  return (resfile.flatten, st.appstartaddr)

/-! ### The program -/

/-- The kinds of file that a conversion makes. -/
inductive Kind where
  | uf2
  | bin
deriving DecidableEq, Repr

/-- `main`, without the options that only show or flash and without `--carray` (`convert_to_carray`):
the kind of the result, the result, and the start address of the message at the end.  Without a start
address the message raises an exception. -/
def convert (base familyid : Int) (inpbuf : List Byte) : Option (Kind × List Byte × Int) := do
  let fromUf2 ← isUf2 inpbuf
  if fromUf2 = true then
    let r ← convertFromUf2 base familyid inpbuf
    return (.bin, r.1, r.2)
  else if isHex inpbuf = true then
    let r ← convertFromHexToUf2 familyid inpbuf
    let start ← r.2
    return (.uf2, r.1, (start : Int))
  else
    let outbuf ← convertToUf2 base familyid inpbuf
    return (.uf2, outbuf, base)

/-- `pico_uf2.sh`: what is made of the three images of a build. -/
def picoUf2 (bl2 tfmSNsSigned provisioningBundle : List Byte) :
    List (Option (Kind × List Byte × Int)) :=
  [convert 0x10000000 0xe48bff59 bl2, convert 0x10011000 0xe48bff59 tfmSNsSigned,
    convert 0x1019F000 0xe48bff59 provisioningBundle]

end Uf2
