import Pico2wTfm.Support.Placement
import Pico2wTfm.Tools.Uf2

/-!
# Results — Uf2Images

The UF2 files of the conversion tool, as memory images.  A block is a piece of data for an address,
and a file is what its blocks leave in a memory, whatever order of bytes, flags and lengths stand for
it.  The two directions of the tool meet there.

* `from_uf2_image`: when the blocks of a file are of one family, the tool takes the file exactly when
  its blocks are in order, and what comes out is the memory that they make.
-/

namespace Uf2
open Bytes Placement

/-! ### Blocks -/

def HasMagic (block : List Byte) : Prop :=
  word block 0 = uf2MagicStart0 ∧ word block 1 = uf2MagicStart1

instance (block : List Byte) : Decidable (HasMagic block) := inferInstanceAs (Decidable (_ ∧ _))

/-- The block is not for the flash. -/
def noFlash (block : List Byte) : Bool := (word block 2).testBit 0

/-- The data of a block, and where it goes. -/
def pieceOf (block : List Byte) : Piece Byte := ⟨word block 3, (block.drop 32).take (word block 4)⟩

/-- The blocks of a file that are for the flash. -/
def taken (blocks : List (List Byte)) : List (List Byte) := blocks.filter fun b => !noFlash b

def piecesOf (blocks : List (List Byte)) : List (Piece Byte) := (taken blocks).map pieceOf

theorem taken_skip {block : List Byte} {blocks : List (List Byte)} (h : noFlash block = true) :
    taken (block :: blocks) = taken blocks :=
  List.filter_cons_of_neg (by rw [h]; decide)

theorem taken_take {block : List Byte} {blocks : List (List Byte)} (h : noFlash block = false) :
    taken (block :: blocks) = block :: taken blocks :=
  List.filter_cons_of_pos (by rw [h]; rfl)

/-- The blocks are as `convert_from_uf2` wants them from the address `curr` on: no data is too long,
and each begins behind the one before it, at most ten megabytes and in words. -/
def Spaced : Nat → List (List Byte) → Prop
  | _, [] => True
  | curr, block :: rest => word block 4 ≤ 476 ∧
      (curr ≤ word block 3 ∧ word block 3 - curr ≤ maxPadding ∧
        (word block 3 - curr) % 4 = 0) ∧ Spaced (word block 3 + word block 4) rest

instance : ∀ (curr : Nat) (blocks : List (List Byte)), Decidable (Spaced curr blocks)
  | _, [] => inferInstanceAs (Decidable True)
  | _, block :: rest =>
      haveI : Decidable (Spaced (word block 3 + word block 4) rest) := instDecidableSpaced _ rest
      inferInstanceAs (Decidable (_ ∧ _ ∧ _))

/-- One family, or none: every block names the family `family` if `named`, no block does otherwise;
and it is asked for. -/
structure OneFamily (familyid : Int) (named : Bool) (family : Nat) (blocks : List (List Byte)) :
    Prop where
  flag : ∀ b ∈ blocks, flagged b = named
  id : named = true → ∀ b ∈ blocks, word b 7 = family
  asked : familyid = 0 ∨ (named = true ∧ familyid = family)

/-- What the loop has to know of the blocks before. -/
structure Reader.Within (r : Reader) (named : Bool) (family : Nat) (curr : Nat) : Prop where
  curraddr : r.curraddr = some curr
  currfamilyid : named = true → r.currfamilyid = some family
  familiesFound : r.familiesFound = [] ∨ ∃ a, r.familiesFound = [(family, a)]

section Loop

variable {familyid : Int} {named : Bool} {family curr : Nat} {block : List Byte}
  {blocks : List (List Byte)} {r : Reader}

theorem OneFamily.head (h : OneFamily familyid named family (block :: blocks)) :
    flagged block = named ∧ (named = true → word block 7 = family) ∧
      wanted familyid block = (pieceOf block).data := by
  have hflag := h.flag block List.mem_cons_self
  have hfam := fun hn => h.id hn block List.mem_cons_self
  refine ⟨hflag, hfam, if_pos ?_⟩
  rcases h.asked with h0 | ⟨hn, heq⟩
  · exact Or.inl h0
  · exact Or.inr ⟨hflag.trans hn, by rw [hfam hn, heq]⟩

theorem OneFamily.tail (h : OneFamily familyid named family (block :: blocks)) :
    OneFamily familyid named family blocks :=
  ⟨fun b hb => h.flag b (List.mem_cons_of_mem _ hb),
    fun hn b hb => h.id hn b (List.mem_cons_of_mem _ hb), h.asked⟩

theorem found_one {newaddr : Nat} (h : r.familiesFound = [] ∨ ∃ a, r.familiesFound = [(family, a)]) :
    ∃ a, found r.familiesFound family newaddr = [(family, a)] := by
  rcases h with h | ⟨a, h⟩
  · exact ⟨newaddr, by rw [h]; rfl⟩
  · rw [h, found]
    simp only [List.any_cons, beq_self_eq_true, Bool.true_or, if_true, List.map_cons, List.map_nil,
      true_and]
    split
    · exact ⟨newaddr, rfl⟩
    · exact ⟨a, rfl⟩

theorem paddingOf_eq {newaddr : Nat} : paddingOf curr newaddr =
    if curr ≤ newaddr ∧ newaddr - curr ≤ maxPadding ∧ (newaddr - curr) % 4 = 0 then
      some (newaddr - curr) else none := by
  unfold paddingOf
  split_ifs <;> first | rfl | omega

theorem stop_pieceOf (hlen : block.length = 512) (hdata : word block 4 ≤ 476) :
    (pieceOf block).stop = word block 3 + word block 4 := by
  have hl : ((block.drop 32).take (word block 4)).length = word block 4 := by
    rw [List.length_take, List.length_drop, hlen]
    omega
  exact congrArg (word block 3 + ·) hl

/-- A block of the family goes on from where the reader is. -/
theorem Reader.Within.turn_eq (hr : r.Within named family curr) (hflag : flagged block = named)
    (hfam : named = true → word block 7 = family) : r.turn familyid block = r := by
  have same : ¬(flagged block = true ∧ some (word block 7) ≠ r.currfamilyid) := by
    rintro ⟨hf, hne⟩
    have hn : named = true := hflag.symm.trans hf
    exact hne ((congrArg some (hfam hn)).trans (hr.currfamilyid hn).symm)
  have known : ¬(flagged block = true ∧ r.currfamilyid = none) := by
    rintro ⟨hf, hnone⟩
    have hn : named = true := hflag.symm.trans hf
    exact Option.some_ne_none _ ((hr.currfamilyid hn).symm.trans hnone)
  have going : r.curraddr ≠ none := by
    rw [hr.curraddr]
    exact Option.some_ne_none curr
  rw [Reader.turn, if_neg known, if_neg (not_or.mpr ⟨going, same⟩)]

/-- The state after a block that is read. -/
def Reader.after (familyid : Int) (block : List Byte) (padding : Nat) (r : Reader) : Reader :=
  { r with
    outp := r.outp ++ List.replicate padding 0 ++ wanted familyid block
    curraddr := some (word block 3 + word block 4)
    familiesFound := if flagged block = true then found r.familiesFound (word block 7) (word block 3)
      else r.familiesFound }

theorem Reader.block_def (r : Reader) {last : Bool} : r.block familyid block last =
    if word block 0 ≠ uf2MagicStart0 ∨ word block 1 ≠ uf2MagicStart1 then none
    else if (word block 2).testBit 0 = true then some r
    else if 476 < word block 4 then none
    else (paddingOf ((r.turn familyid block).curraddr.getD (word block 3)) (word block 3)).bind
      fun padding =>
        if last = true ∧
            1 < ((r.turn familyid block).after familyid block padding).familiesFound.length ∧
              familyid = 0 then
          some { (r.turn familyid block).after familyid block padding with
            outp := [], appstartaddr := 0 }
        else some ((r.turn familyid block).after familyid block padding) := rfl

theorem Reader.Within.after (hr : r.Within named family curr) (hflag : flagged block = named)
    (hfam : named = true → word block 7 = family) {padding : Nat} :
    (r.after familyid block padding).Within named family (word block 3 + word block 4) := by
  refine ⟨rfl, hr.currfamilyid, ?_⟩
  rw [Reader.after]
  dsimp only
  by_cases hf : flagged block = true
  · rw [if_pos hf, hfam (hflag.symm.trans hf)]
    exact Or.inr (found_one hr.familiesFound)
  · rw [if_neg hf]
    exact hr.familiesFound

/-- **One block** of the family. -/
theorem Reader.Within.block_eq (hr : r.Within named family curr) {last : Bool}
    (hm : HasMagic block) (hflash : noFlash block = false)
    (h : OneFamily familyid named family (block :: blocks)) : r.block familyid block last =
      if word block 4 ≤ 476 ∧ curr ≤ word block 3 ∧ word block 3 - curr ≤ maxPadding ∧
          (word block 3 - curr) % 4 = 0 then
        some (r.after familyid block (word block 3 - curr))
      else none := by
  obtain ⟨hflag, hfam, -⟩ := h.head
  have hmagic : ¬(word block 0 ≠ uf2MagicStart0 ∨ word block 1 ≠ uf2MagicStart1) :=
    not_or.mpr ⟨not_not.mpr hm.1, not_not.mpr hm.2⟩
  have hbit : ¬(word block 2).testBit 0 = true := ne_true_of_eq_false hflash
  have hturn : r.turn familyid block = r := hr.turn_eq hflag hfam
  have one : ∀ padding, ¬(last = true ∧
      1 < (r.after familyid block padding).familiesFound.length ∧ familyid = 0) := by
    rintro padding ⟨-, hlen, -⟩
    rcases (@hr.after familyid _ _ _ _ _ hflag hfam).familiesFound with hf | ⟨a, hf⟩
    · rw [hf] at hlen
      exact absurd hlen (Nat.not_lt_zero 1)
    · rw [hf] at hlen
      exact absurd hlen (lt_irrefl 1)
  rw [r.block_def, if_neg hmagic, if_neg hbit, hturn]
  by_cases hdata : 476 < word block 4
  · rw [if_pos hdata, if_neg fun hc => absurd hc.1 (not_le.mpr hdata)]
  · have hpad : paddingOf (r.curraddr.getD (word block 3)) (word block 3) =
        paddingOf curr (word block 3) := by
      rw [hr.curraddr]
      rfl
    rw [if_neg hdata, hpad, paddingOf_eq]
    by_cases hc : curr ≤ word block 3 ∧ word block 3 - curr ≤ maxPadding ∧
        (word block 3 - curr) % 4 = 0
    · rw [if_pos hc, if_pos ⟨not_lt.mp hdata, hc⟩, Option.bind_some, if_neg (one _)]
    · rw [if_neg hc, if_neg fun h => hc h.2]
      rfl

/-- **The loop**, over blocks of the family. -/
theorem Reader.Within.blocks_eq (hr : r.Within named family curr)
    (hlen : ∀ b ∈ blocks, b.length = 512) (hm : ∀ b ∈ blocks, HasMagic b)
    (h : OneFamily familyid named family (taken blocks)) :
    (Reader.blocks familyid blocks r).map (fun r => (r.outp, r.appstartaddr)) =
      if Spaced curr (taken blocks) then
        some (r.outp ++ assemble 0 curr (piecesOf blocks), r.appstartaddr) else none := by
  induction blocks generalizing r curr with
  | nil =>
      have hs : Spaced curr (taken []) := trivial
      rw [if_pos hs, show piecesOf [] = [] from rfl, assemble, List.append_nil]
      rfl
  | cons block blocks ih =>
      obtain ⟨hlen, hlens⟩ := List.forall_mem_cons.mp hlen
      obtain ⟨hmagic, hmagics⟩ := List.forall_mem_cons.mp hm
      rw [Reader.blocks]
      by_cases hflash : noFlash block = true
      · -- a block that is skipped
        have hskip := @taken_skip block blocks hflash
        have hblock : r.block familyid block blocks.isEmpty = some r := by
          rw [Reader.block, if_neg (not_or.mpr ⟨not_not.mpr hmagic.1, not_not.mpr hmagic.2⟩),
            if_pos (show (word block 2).testBit 0 = true from hflash)]
        rw [hskip] at h
        rw [hblock, Option.bind_some, ih hr hlens hmagics h, hskip, piecesOf, piecesOf, hskip]
      · have hflash : noFlash block = false := Bool.eq_false_iff.mpr hflash
        have htake := @taken_take block blocks hflash
        rw [htake] at h
        obtain ⟨hflag, hfam, hdata⟩ := h.head
        rw [hr.block_eq hmagic hflash h, htake, piecesOf, htake]
        by_cases hc : word block 4 ≤ 476 ∧ curr ≤ word block 3 ∧
            word block 3 - curr ≤ maxPadding ∧ (word block 3 - curr) % 4 = 0
        · have hout : (r.after familyid block (word block 3 - curr)).outp =
              r.outp ++ List.replicate (word block 3 - curr) 0 ++ (pieceOf block).data := by
            rw [← hdata]
            rfl
          rw [if_pos hc, Option.bind_some, ih (hr.after hflag hfam) hlens hmagics h.tail, hout,
            List.map_cons, assemble, stop_pieceOf hlen hc.1]
          by_cases hs : Spaced (word block 3 + word block 4) (taken blocks)
          · have hspaced : Spaced curr (block :: taken blocks) := ⟨hc.1, hc.2, hs⟩
            rw [if_pos hs, if_pos hspaced]
            simp only [List.append_assoc]
            rfl
          · have hspaced : ¬Spaced curr (block :: taken blocks) := fun h => hs h.2.2
            rw [if_neg hs, if_neg hspaced]
        · have hspaced : ¬Spaced curr (block :: taken blocks) := fun h => hc ⟨h.1, h.2.1⟩
          rw [if_neg hc, if_neg hspaced]
          rfl

/-- A block with another magic ends the conversion. -/
theorem Reader.blocks_of_bad (hm : ¬∀ b ∈ blocks, HasMagic b) (r : Reader) :
    Reader.blocks familyid blocks r = none := by
  induction blocks generalizing r with
  | nil => exact absurd (fun _ hb => absurd hb List.not_mem_nil) hm
  | cons block blocks ih =>
      rw [Reader.blocks]
      by_cases hb : HasMagic block
      · have hrest : ¬∀ b ∈ blocks, HasMagic b := fun h => hm (List.forall_mem_cons.mpr ⟨hb, h⟩)
        exact Option.bind_eq_none_iff.mpr fun r' _ => ih hrest r'
      · have hbad : word block 0 ≠ uf2MagicStart0 ∨ word block 1 ≠ uf2MagicStart1 :=
          not_and_or.mp hb
        rw [r.block_def, if_pos hbad]
        rfl

/-- The first block for the flash says where the data starts. -/
def baseOf (blocks : List (List Byte)) : Nat := ((taken blocks).head?.map fun b => word b 3).getD 0

def startOf (start : Int) (blocks : List (List Byte)) : Int :=
  ((taken blocks).head?.map fun b => (word b 3 : Int)).getD start

/-- **The loop from its start.** -/
theorem Reader.blocks_start {start : Int} (hlen : ∀ b ∈ blocks, b.length = 512)
    (hm : ∀ b ∈ blocks, HasMagic b) (h : OneFamily familyid named family (taken blocks)) :
    (Reader.blocks familyid blocks ⟨start, none, none, [], []⟩).map
        (fun r => (r.outp, r.appstartaddr)) =
      if Spaced (baseOf blocks) (taken blocks) then
        some (assemble 0 (baseOf blocks) (piecesOf blocks), startOf start blocks) else none := by
  induction blocks with
  | nil =>
      have hs : Spaced (baseOf []) (taken []) := trivial
      rw [if_pos hs]
      rfl
  | cons block blocks ih =>
      have hmagic := hm block List.mem_cons_self
      have hgood : ¬(word block 0 ≠ uf2MagicStart0 ∨ word block 1 ≠ uf2MagicStart1) :=
        not_or.mpr ⟨not_not.mpr hmagic.1, not_not.mpr hmagic.2⟩
      by_cases hflash : noFlash block = true
      · have hbit : (word block 2).testBit 0 = true := hflash
        rw [taken_skip hflash] at h
        rw [Reader.blocks, Reader.block_def, if_neg hgood, if_pos hbit, Option.bind_some,
          ih (fun b hb => hlen b (List.mem_cons_of_mem _ hb))
            (fun b hb => hm b (List.mem_cons_of_mem _ hb)) h, baseOf, baseOf, startOf, startOf,
          piecesOf, piecesOf, taken_skip hflash]
      · have hbit : ¬(word block 2).testBit 0 = true := hflash
        have htake := @taken_take block blocks (Bool.eq_false_iff.mpr hflash)
        have hbase : baseOf (block :: blocks) = word block 3 := by
          rw [baseOf, htake]
          rfl
        have hstart : startOf start (block :: blocks) = word block 3 := by
          rw [startOf, htake]
          rfl
        have hhead := h
        rw [htake] at hhead
        obtain ⟨hflag, hfam, -⟩ := hhead.head
        have hasked : familyid = 0 ∨ familyid = word block 7 := by
          rcases h.asked with h0 | ⟨hn, heq⟩
          · exact Or.inl h0
          · exact Or.inr (by rw [hfam hn, heq])
        -- the first block sets the reader to where it is itself
        obtain ⟨r, hr⟩ : ∃ r, r = Reader.turn familyid block ⟨start, none, none, [], []⟩ := ⟨_, rfl⟩
        have hturn : r = ⟨word block 3, some (word block 3), some (word block 7), [], []⟩ := by
          rw [hr, Reader.turn]
          dsimp only
          split_ifs
          all_goals first
            | rfl
            | (rename_i hno; exact absurd (Or.inl rfl) hno)
        have hwithin : r.Within named family (word block 3) := by
          rw [hturn]
          exact ⟨rfl, fun hn => congrArg some (hfam hn), Or.inl rfl⟩
        have same : Reader.blocks familyid (block :: blocks) ⟨start, none, none, [], []⟩ =
            Reader.blocks familyid (block :: blocks) r := by
          rw [Reader.blocks, Reader.blocks, Reader.block_def, r.block_def, if_neg hgood, if_neg hgood,
            if_neg hbit, if_neg hbit, hwithin.turn_eq hflag hfam, ← hr]
        rw [same, hwithin.blocks_eq hlen hm h, hbase, hstart, hturn, List.nil_append]

end Loop

/-! ### Files -/

theorem length_blocksOf {buf : List Byte} : ∀ b ∈ blocksOf buf, b.length = 512 := by
  intro b hb
  obtain ⟨blockno, hno, rfl⟩ := List.mem_map.mp hb
  have hlt := List.mem_range.mp hno
  rw [List.length_take, List.length_drop]
  omega

theorem Spaced.ascending {curr : Nat} {blocks : List (List Byte)} (h : Spaced curr blocks)
    (hlen : ∀ b ∈ blocks, b.length = 512) : Ascending curr (blocks.map pieceOf) := by
  induction blocks generalizing curr with
  | nil => trivial
  | cons block blocks ih =>
      obtain ⟨hl, hls⟩ := List.forall_mem_cons.mp hlen
      refine ⟨h.2.1.1, ?_⟩
      rw [stop_pieceOf hl h.1]
      exact ih h.2.2 hls

/-- **What comes out of a UF2 file** whose blocks are of one family.  The conversion takes it exactly
when every block has the magic and the blocks for the flash are in order; and what comes out is, from
the address of the first of these blocks to the end of the last, the memory that they make of zeros. -/
theorem from_uf2_image {start start' familyid : Int} {named : Bool} {family : Nat}
    {buf out : List Byte} (h : OneFamily familyid named family (taken (blocksOf buf))) :
    convertFromUf2 start familyid buf = some (out, start') ↔
      ((∀ b ∈ blocksOf buf, HasMagic b) ∧
        Spaced (baseOf (blocksOf buf)) (taken (blocksOf buf))) ∧
      start' = startOf start (blocksOf buf) ∧
      baseOf (blocksOf buf) + out.length =
        stopOf (baseOf (blocksOf buf)) (piecesOf (blocksOf buf)) ∧
      ∀ i < out.length, out[i]? = some (place (piecesOf (blocksOf buf)) (fun _ => 0)
        (baseOf (blocksOf buf) + i)) := by
  rw [convertFromUf2]
  by_cases hm : ∀ b ∈ blocksOf buf, HasMagic b
  · rw [Reader.blocks_start length_blocksOf hm h]
    by_cases hs : Spaced (baseOf (blocksOf buf)) (taken (blocksOf buf))
    · have asc : Ascending (baseOf (blocksOf buf)) (piecesOf (blocksOf buf)) :=
        hs.ascending fun b hb => length_blocksOf b (List.mem_of_mem_filter hb)
      have hlen := @length_assemble _ _ _ (0 : Byte) asc
      rw [if_pos hs]
      constructor
      · intro heq
        obtain ⟨rfl, rfl⟩ := Prod.mk.inj (Option.some.inj heq)
        exact ⟨⟨hm, hs⟩, rfl, hlen, fun i hi => getElem?_assemble asc hi⟩
      · rintro ⟨-, rfl, hout, hget⟩
        have hsame : out.length =
            (assemble 0 (baseOf (blocksOf buf)) (piecesOf (blocksOf buf))).length := by omega
        refine congrArg some (Prod.ext (List.ext_getElem? fun i => ?_).symm rfl)
        by_cases hi : i < out.length
        · rw [hget i hi]
          exact (getElem?_assemble asc (hsame ▸ hi)).symm
        · rw [List.getElem?_eq_none (not_lt.mp hi), List.getElem?_eq_none (hsame ▸ not_lt.mp hi)]
    · rw [if_neg hs]
      exact ⟨fun h => (by cases h), fun h => absurd h.1.2 hs⟩
  · rw [Reader.blocks_of_bad hm]
    exact ⟨fun h => (by cases h), fun h => absurd h.1.1 hm⟩

/-- A block with four bytes for an address. -/
def smallBlock (addr : Nat) (data : List Byte) : List Byte :=
  leBytes 4 uf2MagicStart0 ++ leBytes 4 uf2MagicStart1 ++ leBytes 4 0x2000 ++ leBytes 4 addr ++
    leBytes 4 data.length ++ leBytes 4 0 ++ leBytes 4 1 ++ leBytes 4 0xe48bff59 ++ data ++
    List.replicate (476 - data.length) 0 ++ leBytes 4 uf2MagicEnd

/-- Two blocks with a gap of a word between them. -/
theorem from_uf2_image_gap :
    convertFromUf2 0x2000 0 (smallBlock 0x10000000 [1, 2, 3, 4] ++ smallBlock 0x10000008 [5, 6, 7, 8]) =
      some ([1, 2, 3, 4, 0, 0, 0, 0, 5, 6, 7, 8], 0x10000000) := by
  have hfamily : OneFamily 0 true 0xe48bff59 (taken (blocksOf
      (smallBlock 0x10000000 [1, 2, 3, 4] ++ smallBlock 0x10000008 [5, 6, 7, 8]))) :=
    ⟨by decide +kernel, fun _ => by decide +kernel, Or.inl rfl⟩
  exact (from_uf2_image hfamily).mpr ⟨by decide +kernel, by decide +kernel, by decide +kernel,
    by decide +kernel⟩

end Uf2
