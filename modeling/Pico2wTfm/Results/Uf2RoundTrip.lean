import Mathlib.Data.List.Forall2
import Pico2wTfm.Results.Uf2Images

/-!
# Results — Uf2RoundTrip

What the conversion tool makes UF2 files of, and what it makes of them again.  Both encoders of the
tool write the same kind of block (`Encodes`), so that a file they write has its pieces for blocks
(`Encoded`), and `Uf2Images` says what comes out of it.

* `uf2_round_trip`: a binary file that is converted, and converted back, is itself, filled up with
  zeros, and the start address is found again.
-/

namespace Uf2
open Bytes Placement

/-! ### One block -/

section Block

variable {n addr familyid : Int} {bs hd data block : List Byte} {blockno numblocks : Nat}

theorem pack32_eq_some (h : pack32 n = some bs) :
    0 ≤ n ∧ bs.length = 4 ∧ (leValue bs : Int) = n := by
  rw [pack32] at h
  split at h
  · rename_i hn
    obtain rfl := Option.some.inj h
    refine ⟨hn.1, length_leBytes 4 _, ?_⟩
    rw [leValue_leBytes_of_lt (by omega)]
    omega
  · cases h

theorem pack32_isSome : (pack32 n).isSome = true ↔ 0 ≤ n ∧ n < 2 ^ 32 := by
  rw [pack32]
  split
  · exact ⟨fun _ => ‹_›, fun _ => rfl⟩
  · exact ⟨fun h => (by cases h), fun h => absurd h ‹_›⟩

/-- The block is one with the data `data` for `addr`, as the tool writes it. -/
structure Encodes (familyid addr : Int) (data block : List Byte) : Prop where
  length : block.length = 512
  magic : HasMagic block
  flags : (word block 2 : Int) = flagsOf familyid
  addr : (word block 3 : Int) = addr
  size : word block 4 = 256
  id : (word block 7 : Int) = familyid
  data : (block.drop 32).take 256 = data

/-- A word of a block, between what stands before it and behind it. -/
theorem word_append {as cs : List Byte} {i : Nat} (ha : as.length = 4 * i) (hb : bs.length = 4) :
    word (as ++ (bs ++ cs)) i = leValue bs := by
  rw [word, List.drop_left' ha, List.take_left' hb]

theorem length_blockHeader (h : blockHeader familyid addr blockno numblocks = some hd) :
    hd.length = 32 := by
  simp only [blockHeader, Option.bind_eq_bind, Option.bind_eq_some_iff] at h
  obtain ⟨m₀, h₀, m₁, h₁, fl, h₂, target, h₃, size, h₄, no, h₅, num, h₆, family, h₇, hret⟩ := h
  obtain rfl := Option.some.inj hret
  simp only [List.length_append, (pack32_eq_some h₀).2.1, (pack32_eq_some h₁).2.1,
    (pack32_eq_some h₂).2.1, (pack32_eq_some h₃).2.1, (pack32_eq_some h₄).2.1,
    (pack32_eq_some h₅).2.1, (pack32_eq_some h₆).2.1, (pack32_eq_some h₇).2.1]

/-- **A header, data and a trailer** make a block. -/
theorem encodes_block (h : blockHeader familyid addr blockno numblocks = some hd)
    (hdata : data.length = 256) {rest : List Byte} (hrest : rest.length = 224) :
    Encodes familyid addr data (hd ++ data ++ rest) := by
  have hlen := length_blockHeader h
  simp only [blockHeader, Option.bind_eq_bind, Option.bind_eq_some_iff] at h
  obtain ⟨m₀, h₀, m₁, h₁, fl, h₂, target, h₃, size, h₄, no, h₅, num, h₆, family, h₇, hret⟩ := h
  obtain ⟨-, l₀, v₀⟩ := pack32_eq_some h₀
  obtain ⟨-, l₁, v₁⟩ := pack32_eq_some h₁
  obtain ⟨-, l₂, v₂⟩ := pack32_eq_some h₂
  obtain ⟨-, l₃, v₃⟩ := pack32_eq_some h₃
  obtain ⟨-, l₄, v₄⟩ := pack32_eq_some h₄
  obtain ⟨-, l₅, -⟩ := pack32_eq_some h₅
  obtain ⟨-, l₆, -⟩ := pack32_eq_some h₆
  obtain ⟨-, l₇, v₇⟩ := pack32_eq_some h₇
  obtain rfl := Option.some.inj hret
  have split : ∀ i < 8, ∃ as cs, m₀ ++ m₁ ++ fl ++ target ++ size ++ no ++ num ++ family ++ data ++
      rest = as ++ ([m₀, m₁, fl, target, size, no, num, family].getD i [] ++ cs) ∧
        as.length = 4 * i := by
    intro i hi
    refine ⟨([m₀, m₁, fl, target, size, no, num, family].take i).flatten,
      ([m₀, m₁, fl, target, size, no, num, family].drop (i + 1)).flatten ++ (data ++ rest), ?_⟩
    obtain rfl | rfl | rfl | rfl | rfl | rfl | rfl | rfl : i = 0 ∨ i = 1 ∨ i = 2 ∨ i = 3 ∨ i = 4 ∨
      i = 5 ∨ i = 6 ∨ i = 7 := by omega
    all_goals simp [l₀, l₁, l₂, l₃, l₄, l₅, l₆]
  have words : ∀ i < 8, word (m₀ ++ m₁ ++ fl ++ target ++ size ++ no ++ num ++ family ++ data ++ rest)
      i = leValue ([m₀, m₁, fl, target, size, no, num, family].getD i []) := by
    intro i hi
    obtain ⟨as, cs, heq, has⟩ := split i hi
    have hb : ([m₀, m₁, fl, target, size, no, num, family].getD i []).length = 4 := by
      obtain rfl | rfl | rfl | rfl | rfl | rfl | rfl | rfl : i = 0 ∨ i = 1 ∨ i = 2 ∨ i = 3 ∨ i = 4 ∨
        i = 5 ∨ i = 6 ∨ i = 7 := by omega
      all_goals assumption
    rw [heq, word_append has hb]
  constructor
  · rw [List.length_append, List.length_append, hlen, hdata, hrest]
  · exact ⟨(words 0 (by decide)).trans (Int.ofNat.inj v₀),
      (words 1 (by decide)).trans (Int.ofNat.inj v₁)⟩
  · rw [words 2 (by decide)]
    exact v₂
  · rw [words 3 (by decide)]
    exact v₃
  · rw [words 4 (by decide)]
    exact Int.ofNat.inj v₄
  · rw [words 7 (by decide)]
    exact v₇
  · rw [List.append_assoc, List.drop_left' hlen, List.take_left' hdata]

/-- When a header can be packed. -/
theorem blockHeader_isSome : (blockHeader familyid addr blockno numblocks).isSome = true ↔
    (0 ≤ familyid ∧ familyid < 2 ^ 32) ∧ (0 ≤ addr ∧ addr < 2 ^ 32) ∧ blockno < 2 ^ 32 ∧
      numblocks < 2 ^ 32 := by
  constructor
  · intro h
    obtain ⟨hd, h⟩ := Option.isSome_iff_exists.mp h
    simp only [blockHeader, Option.bind_eq_bind, Option.bind_eq_some_iff] at h
    obtain ⟨m₀, -, m₁, -, fl, -, target, h₃, size, -, no, h₅, num, h₆, family, h₇, -⟩ := h
    have packed : ∀ {n : Int} {bs : List Byte}, pack32 n = some bs → 0 ≤ n ∧ n < 2 ^ 32 := fun h =>
      pack32_isSome.mp (Option.isSome_iff_exists.mpr ⟨_, h⟩)
    exact ⟨packed h₇, packed h₃, by exact_mod_cast (packed h₅).2, by exact_mod_cast (packed h₆).2⟩
  · rintro ⟨hfamily, haddr, hno, hnum⟩
    have packs : ∀ n : Int, 0 ≤ n ∧ n < 2 ^ 32 → ∃ bs, pack32 n = some bs := fun n hn =>
      Option.isSome_iff_exists.mp (pack32_isSome.mpr hn)
    obtain ⟨m₀, h₀⟩ := packs uf2MagicStart0 (by decide)
    obtain ⟨m₁, h₁⟩ := packs uf2MagicStart1 (by decide)
    obtain ⟨fl, h₂⟩ := packs (flagsOf familyid) (by unfold flagsOf; split <;> decide)
    obtain ⟨target, h₃⟩ := packs addr haddr
    obtain ⟨size, h₄⟩ := packs 256 (by decide)
    obtain ⟨no, h₅⟩ := packs blockno ⟨Int.natCast_nonneg _, by exact_mod_cast hno⟩
    obtain ⟨num, h₆⟩ := packs numblocks ⟨Int.natCast_nonneg _, by exact_mod_cast hnum⟩
    obtain ⟨family, h₇⟩ := packs familyid hfamily
    rw [blockHeader, h₀, h₁, h₂, h₃, h₄, h₅, h₆, h₇]
    rfl

end Block

/-! ### Files of such blocks -/

/-- `mapM` succeeds where each call does. -/
theorem mapM_some {α β : Type} {f : α → Option β} {l : List α} {r : List β}
    (h : l.mapM f = some r) : List.Forall₂ (fun a b => f a = some b) l r := by
  induction l generalizing r with
  | nil =>
      obtain rfl : [] = r := Option.some.inj h
      exact .nil
  | cons a l ih =>
      rw [List.mapM_cons] at h
      simp only [Option.bind_eq_bind, Option.bind_eq_some_iff] at h
      obtain ⟨b, hb, bs, hbs, hret⟩ := h
      obtain rfl : b :: bs = r := Option.some.inj hret
      exact .cons hb (ih hbs)

theorem mapM_isSome {α β : Type} {f : α → Option β} {l : List α} :
    (l.mapM f).isSome = true ↔ ∀ a ∈ l, (f a).isSome = true := by
  induction l with
  | nil => exact ⟨fun _ _ ha => absurd ha List.not_mem_nil, fun _ => rfl⟩
  | cons a l ih =>
      rw [List.forall_mem_cons, ← ih, List.mapM_cons]
      cases f a with
      | none => exact ⟨fun h => (by cases h), fun h => (by cases h.1)⟩
      | some b =>
          cases l.mapM f with
          | none => exact ⟨fun h => (by cases h), fun h => (by cases h.2)⟩
          | some bs => exact ⟨fun _ => ⟨rfl, rfl⟩, fun _ => rfl⟩

theorem blocksOf_append {block rest : List Byte} (h : block.length = 512) :
    blocksOf (block ++ rest) = block :: blocksOf rest := by
  have hcount : (block ++ rest).length / 512 = rest.length / 512 + 1 := by
    rw [List.length_append, h]
    omega
  rw [blocksOf, hcount, List.range_succ_eq_map, List.map_cons, List.map_map]
  refine congrArg₂ List.cons ?_ (List.map_congr_left fun i _ => ?_)
  · rw [Nat.zero_mul, List.drop_zero, List.take_left' h]
  · have hdrop : (block ++ rest).drop ((i + 1) * 512) = rest.drop (i * 512) := by
      rw [Nat.succ_mul, Nat.add_comm, ← List.drop_drop, List.drop_left' h]
    rw [Function.comp_apply, Nat.succ_eq_add_one, hdrop]

/-- **A file that the tool writes**, for the pieces `ps`. -/
def Encoded (familyid : Int) (ps : List (Piece Byte)) (buf : List Byte) : Prop :=
  ∃ blocks : List (List Byte), buf = blocks.flatten ∧
    List.Forall₂ (fun p b => Encodes familyid p.addr p.data b) ps blocks

/-- Each piece begins behind the one before it, not too far, and in words. -/
def Near : Nat → List (Piece Byte) → Prop
  | _, [] => True
  | curr, p :: ps => (curr ≤ p.addr ∧ p.addr - curr ≤ maxPadding ∧ (p.addr - curr) % 4 = 0) ∧
      Near p.stop ps

section File

variable {familyid g start : Int} {ps : List (Piece Byte)} {buf block data : List Byte}
  {blocks : List (List Byte)} {addr : Int}

theorem Encodes.noFlash (h : Encodes familyid addr data block) : noFlash block = false := by
  have hflags := h.flags
  rw [Uf2.noFlash]
  rw [flagsOf] at hflags
  split at hflags
  · rw [Int.ofNat.inj hflags]
    decide
  · rw [Int.ofNat.inj hflags]
    decide

theorem Encodes.flagged (h : Encodes familyid addr data block) :
    flagged block = decide (familyid ≠ 0) := by
  have hflags := h.flags
  rw [Uf2.flagged]
  rw [flagsOf] at hflags
  split at hflags
  · rename_i h0
    rw [Int.ofNat.inj hflags, h0]
    decide
  · rename_i h0
    rw [Int.ofNat.inj hflags, decide_eq_true h0]
    decide

theorem Encodes.pieceOf (h : Encodes familyid addr data block) {p : Piece Byte}
    (ha : addr = p.addr) (hd : data = p.data) : pieceOf block = p := by
  have haddr : word block 3 = p.addr := Int.ofNat.inj (h.addr.trans ha)
  rw [Uf2.pieceOf, haddr, h.size, h.data, hd]

/-- The blocks of such a file. -/
theorem blocksOf_encoded (h : List.Forall₂ (fun p b => Encodes familyid p.addr p.data b) ps blocks) :
    blocksOf blocks.flatten = blocks := by
  induction h with
  | nil => rfl
  | cons hb _ ih => rw [List.flatten_cons, blocksOf_append hb.length, ih]

theorem taken_encoded (h : List.Forall₂ (fun p b => Encodes familyid p.addr p.data b) ps blocks) :
    taken blocks = blocks := by
  induction h with
  | nil => rfl
  | cons hb _ ih => rw [taken_take hb.noFlash, ih]

theorem pieces_encoded (h : List.Forall₂ (fun p b => Encodes familyid p.addr p.data b) ps blocks) :
    blocks.map pieceOf = ps := by
  induction h with
  | nil => rfl
  | cons hb _ ih => rw [List.map_cons, hb.pieceOf rfl rfl, ih]

/-- **The pieces of such a file** are those it was written for. -/
theorem Encoded.piecesOf (h : Encoded familyid ps buf) : piecesOf (blocksOf buf) = ps := by
  obtain ⟨blocks, rfl, hb⟩ := h
  rw [Uf2.piecesOf, blocksOf_encoded hb, taken_encoded hb, pieces_encoded hb]

theorem spaced_encoded {curr : Nat}
    (h : List.Forall₂ (fun p b => Encodes familyid p.addr p.data b) ps blocks) :
    Spaced curr blocks ↔ Near curr ps := by
  induction h generalizing curr with
  | nil => exact Iff.rfl
  | @cons p b ps bs hb _ ih =>
      have haddr : word b 3 = p.addr := Int.ofNat.inj hb.addr
      have hsize : word b 4 ≤ 476 := by
        rw [hb.size]
        decide
      have hstop : word b 3 + word b 4 = p.stop := by
        rw [← hb.pieceOf rfl rfl, stop_pieceOf hb.length hsize]
      rw [Spaced, Near, hstop, haddr, ih, and_iff_right hsize]

theorem forall_encoded {P : List Byte → Prop}
    (h : List.Forall₂ (fun p b => Encodes familyid p.addr p.data b) ps blocks)
    (hP : ∀ (p : Piece Byte) b, Encodes familyid p.addr p.data b → P b) : ∀ b ∈ blocks, P b := by
  induction h with
  | nil => exact fun _ hb => absurd hb List.not_mem_nil
  | cons hb _ ih => exact List.forall_mem_cons.mpr ⟨hP _ _ hb, ih⟩

theorem oneFamily_encoded
    (h : List.Forall₂ (fun p b => Encodes familyid p.addr p.data b) ps blocks)
    (h0 : 0 ≤ familyid) (hg : g = 0 ∨ g = familyid) :
    OneFamily g (decide (familyid ≠ 0)) familyid.toNat blocks := by
  refine ⟨forall_encoded h fun _ _ hb => hb.flagged, fun _ => forall_encoded h fun _ _ hb => ?_, ?_⟩
  · have hid := hb.id
    omega
  · by_cases hz : g = 0
    · exact Or.inl hz
    · have hgf := hg.resolve_left hz
      refine Or.inr ⟨decide_eq_true (hgf ▸ hz), ?_⟩
      omega

/-- **Reading such a file back**, for its family or for any. -/
theorem Encoded.decode (h : Encoded familyid ps buf) (hg : g = 0 ∨ g = familyid)
    {r : List Byte × Int} : convertFromUf2 start g buf = some r ↔
      Near ((ps.head?.map Piece.addr).getD 0) ps ∧
        (assemble 0 ((ps.head?.map Piece.addr).getD 0) ps,
          (ps.head?.map fun p => (p.addr : Int)).getD start) = r := by
  have hpieces := h.piecesOf
  obtain ⟨blocks, rfl, hb⟩ := h
  cases hb with
  | nil => exact Option.some_inj.trans (and_iff_right trivial).symm
  | @cons p b ps bs hb hbs =>
      have all : List.Forall₂ (fun p b => Encodes familyid p.addr p.data b) (p :: ps) (b :: bs) :=
        .cons hb hbs
      have haddr : word b 3 = p.addr := Int.ofNat.inj hb.addr
      have h0 : 0 ≤ familyid := by
        rw [← hb.id]
        exact Int.natCast_nonneg _
      have htaken := taken_encoded all
      have hfamily : OneFamily g (decide (familyid ≠ 0)) familyid.toNat (taken (b :: bs)) := by
        rw [htaken]
        exact oneFamily_encoded all h0 hg
      have hbase : baseOf (b :: bs) = p.addr := by
        rw [baseOf, htaken]
        exact haddr
      have hstart : startOf start (b :: bs) = p.addr := by
        rw [startOf, htaken]
        exact congrArg Nat.cast haddr
      rw [blocksOf_encoded all] at hpieces
      rw [convertFromUf2, blocksOf_encoded all, Reader.blocks_start
        (forall_encoded all fun _ _ h => h.length) (forall_encoded all fun _ _ h => h.magic) hfamily,
        hpieces, hbase, hstart, htaken, Option.ite_none_right_eq_some, Option.some_inj,
        spaced_encoded all]
      exact Iff.rfl

end File

/-! ### Binary files -/

/-- A file, filled up with zeros to a whole number of blocks. -/
def filled (content : List Byte) : List Byte :=
  content ++ List.replicate (256 * ((content.length + 255) / 256) - content.length) 0

/-- The pieces of a binary file: 256 bytes each, the last filled up. -/
def chunks (base : Nat) (content : List Byte) : List (Piece Byte) :=
  (List.range ((content.length + 255) / 256)).map fun i =>
    ⟨256 * i + base, ((filled content).drop (256 * i)).take 256⟩

section Binary

variable {base familyid g start : Int} {content buf : List Byte}

theorem length_filled : (filled content).length = 256 * ((content.length + 255) / 256) := by
  rw [filled, List.length_append, List.length_replicate]
  omega

/-- The slices of a list, one after the other. -/
theorem flatMap_slices {α : Type} {l : List α} {w n : Nat} (h : l.length = w * n) :
    ((List.range n).flatMap fun i => (l.drop (w * i)).take w) = l := by
  induction n generalizing l with
  | zero =>
      rw [List.length_eq_zero_iff.mp h]
      rfl
  | succ n ih =>
      have hrest : (l.drop w).length = w * n := by
        rw [List.length_drop, h, Nat.mul_succ, Nat.add_sub_cancel]
      have hslices : ((List.range n).flatMap fun i => (l.drop (w * (i + 1))).take w) = l.drop w := by
        refine Eq.trans (List.flatMap_congr fun i _ => ?_) (ih hrest)
        rw [List.drop_drop, Nat.mul_succ, Nat.add_comm]
      rw [List.range_succ_eq_map, List.flatMap_cons, List.flatMap_map, Nat.mul_zero, List.drop_zero]
      exact (congrArg _ hslices).trans (List.take_append_drop w l)

theorem joined_chunks {content : List Byte} {base n k : Nat}
    (hn : k + n ≤ (content.length + 255) / 256) :
    Joined (256 * k + base) ((List.range n).map fun i =>
      (⟨256 * (k + i) + base, ((filled content).drop (256 * (k + i))).take 256⟩ : Piece Byte)) := by
  induction n generalizing k with
  | zero => trivial
  | succ n ih =>
      rw [List.range_succ_eq_map, List.map_cons, List.map_map]
      have hstop : (⟨256 * (k + 0) + base, ((filled content).drop (256 * (k + 0))).take 256⟩ :
          Piece Byte).stop = 256 * (k + 1) + base := by
        have hl : (((filled content).drop (256 * (k + 0))).take 256).length = 256 := by
          rw [List.length_take, List.length_drop, length_filled]
          omega
        rw [Piece.stop, hl]
        dsimp only
        omega
      refine ⟨rfl, ?_⟩
      rw [hstop]
      have hrest := ih (k := k + 1) (by omega)
      have hfun : ((fun i => (⟨256 * (k + i) + base,
          ((filled content).drop (256 * (k + i))).take 256⟩ : Piece Byte)) ∘ Nat.succ) =
          fun i => ⟨256 * (k + 1 + i) + base, ((filled content).drop (256 * (k + 1 + i))).take 256⟩ := by
        funext i
        rw [Function.comp_apply, show k + Nat.succ i = k + 1 + i by omega]
      rwa [hfun]

/-- A chunk that is filled up is a slice of the file that is. -/
theorem chunk_filled {i : Nat} (hi : i < (content.length + 255) / 256) :
    (content.drop (256 * i)).take 256 ++
        List.replicate (256 - ((content.drop (256 * i)).take 256).length) 0 =
      ((filled content).drop (256 * i)).take 256 := by
  have hle : 256 * i - content.length = 0 := by omega
  rw [filled, List.drop_append, hle, List.drop_zero, List.take_append, List.take_replicate,
    List.length_take, List.length_drop]
  congr 2
  omega

/-- The blocks that `convert_to_uf2` makes. -/
theorem encoded_convertToUf2 (h : convertToUf2 base familyid content = some buf)
    (hbase : 0 ≤ base) : Encoded familyid (chunks base.toNat content) buf := by
  simp only [convertToUf2, Option.bind_eq_bind, Option.bind_eq_some_iff] at h
  obtain ⟨blocks, hblocks, hret⟩ := h
  obtain rfl := Option.some.inj hret
  refine ⟨blocks, rfl, ?_⟩
  rw [chunks, List.forall₂_map_left_iff]
  have each := (List.forall₂_and_left _ _).mpr
    ⟨fun i hi => List.mem_range.mp hi, mapM_some hblocks⟩
  refine each.imp fun i b hb => ?_
  obtain ⟨hi, hb⟩ := hb
  simp only [Option.bind_eq_some_iff] at hb
  obtain ⟨hd, hhd, magic, hmagic, hret⟩ := hb
  have hret : hd ++ ((content.drop (256 * i)).take 256 ++ List.replicate
      (256 - ((content.drop (256 * i)).take 256).length) 0) ++ dataPadding ++ magic = b :=
    Option.some.inj hret
  have haddr : ((256 * i : Nat) : Int) + base = ((256 * i + base.toNat : Nat) : Int) := by omega
  have hdata : (((filled content).drop (256 * i)).take 256).length = 256 := by
    rw [List.length_take, List.length_drop, length_filled]
    omega
  have htrailer : (dataPadding ++ magic).length = 224 := by
    rw [List.length_append, (pack32_eq_some hmagic).2.1, dataPadding, List.length_replicate]
  rw [← hret, chunk_filled hi, List.append_assoc _ dataPadding]
  rw [haddr] at hhd
  exact encodes_block hhd hdata htrailer

theorem chunks_joined (base : Nat) (content : List Byte) : Joined base (chunks base content) := by
  have h := @joined_chunks content base ((content.length + 255) / 256) 0 (by omega)
  simp only [Nat.mul_zero, Nat.zero_add] at h
  exact h

theorem data_chunks (base : Nat) (content : List Byte) :
    (chunks base content).flatMap Piece.data = filled content := by
  rw [chunks, List.flatMap_map]
  exact flatMap_slices length_filled

theorem head_chunks {base : Nat} (h : content ≠ []) :
    (chunks base content).head?.map Piece.addr = some base := by
  have hpos : 0 < content.length := List.length_pos_iff.mpr h
  obtain ⟨n, hn⟩ : ∃ n, (content.length + 255) / 256 = n + 1 := ⟨(content.length + 255) / 256 - 1, by
    omega⟩
  rw [chunks, hn, List.range_succ_eq_map, List.map_cons, List.head?_cons, Option.map_some,
    Nat.mul_zero, Nat.zero_add]

theorem near_of_joined {ps : List (Piece Byte)} {curr : Nat} (h : Joined curr ps) : Near curr ps := by
  induction ps generalizing curr with
  | nil => trivial
  | cons p ps ih =>
      obtain ⟨rfl, hps⟩ := h
      refine ⟨⟨le_rfl, ?_, ?_⟩, ih hps⟩
      · rw [Nat.sub_self]
        exact Nat.zero_le _
      · rw [Nat.sub_self]

/-- A file with something in it is taken for a UF2 file. -/
theorem Encoded.isUf2 {ps : List (Piece Byte)} (h : Encoded familyid ps buf) (hne : ps ≠ []) :
    isUf2 buf = some true := by
  obtain ⟨blocks, rfl, hb⟩ := h
  cases hb with
  | nil => exact absurd rfl hne
  | @cons p b ps bs hb _ =>
      have hlen : ¬(b :: bs).flatten.length < 8 := by
        rw [List.flatten_cons, List.length_append, hb.length]
        omega
      have hword : ∀ i < 2, word (b :: bs).flatten i = word b i := by
        intro i hi
        have hl := hb.length
        rw [List.flatten_cons, word, word, List.drop_append_of_le_length (by omega),
          List.take_append_of_le_length (by rw [List.length_drop]; omega)]
      rw [Uf2.isUf2, if_neg hlen, hword 0 (by decide), hword 1 (by decide)]
      exact congrArg some (decide_eq_true hb.magic)

/-- When `convert_to_uf2` ends: the addresses and the family are words. -/
theorem convertToUf2_isSome : (convertToUf2 base familyid content).isSome = true ↔
    content = [] ∨ (0 ≤ familyid ∧ familyid < 2 ^ 32) ∧ 0 ≤ base ∧
      base + 256 * ((content.length + 255) / 256 - 1 : Nat) < 2 ^ 32 := by
  have hmagic : ∃ bs, pack32 uf2MagicEnd = some bs := ⟨_, if_pos (by decide)⟩
  obtain ⟨magic, hmagic⟩ := hmagic
  have hisSome : (convertToUf2 base familyid content).isSome = true ↔
      ∀ i < (content.length + 255) / 256, (blockHeader familyid ((256 * i : Nat) + base) i
        ((content.length + 255) / 256)).isSome = true := by
    rw [convertToUf2]
    simp only [hmagic, Option.bind_eq_bind, Option.bind_some, Option.pure_def, Option.isSome_bind,
      Option.isSome_some, Option.any_true, mapM_isSome, List.mem_range]
  rw [hisSome]
  simp only [blockHeader_isSome]
  constructor
  · intro h
    by_cases hne : content = []
    · exact Or.inl hne
    · have hpos : 0 < content.length := List.length_pos_iff.mpr hne
      have hfirst := h 0 (by omega)
      have hlast := h ((content.length + 255) / 256 - 1) (by omega)
      refine Or.inr ⟨hfirst.1, ?_, ?_⟩
      · have := hfirst.2.1.1
        omega
      · have := hlast.2.1.2
        omega
  · rintro (rfl | ⟨hf, hb, hl⟩) i hi
    · exact absurd hi (Nat.not_lt_zero i)
    · refine ⟨hf, ⟨by omega, by omega⟩, by omega, by omega⟩

end Binary

theorem convert_binary {base familyid : Int} {content : List Byte} (huf2 : isUf2 content = some false)
    (hhex : isHex content = false) : convert base familyid content =
      (convertToUf2 base familyid content).map fun outbuf => (.uf2, outbuf, base) := by
  rw [convert, huf2, Option.bind_eq_bind, Option.bind_some, if_neg (by decide), hhex,
    if_neg (by decide)]
  cases convertToUf2 base familyid content <;> rfl

theorem convert_uf2 {base familyid : Int} {buf : List Byte} (huf2 : isUf2 buf = some true) :
    convert base familyid buf =
      (convertFromUf2 base familyid buf).map fun r => (.bin, r.1, r.2) := by
  rw [convert, huf2, Option.bind_eq_bind, Option.bind_some, if_pos rfl]
  cases convertFromUf2 base familyid buf <;> rfl

/-- **The round trip of a binary file.**  A file that is no UF2 file and no HEX file is converted
exactly when the family and the addresses of the blocks are words.  The result is taken for a UF2
file, whatever the base and with the same family or with none; it is converted back to the file,
filled up with zeros, and the base of the first conversion; and it leaves in a memory what the file
does from there on. -/
theorem uf2_round_trip {base base' familyid g : Int} {content : List Byte}
    (hlen : 8 ≤ content.length) (huf2 : isUf2 content = some false) (hhex : isHex content = false)
    (hg : g = 0 ∨ g = familyid) :
    ((∃ r, convert base familyid content = some r) ↔ (0 ≤ familyid ∧ familyid < 2 ^ 32) ∧ 0 ≤ base ∧
        base + 256 * ((content.length + 255) / 256 - 1 : Nat) < 2 ^ 32) ∧
      ∀ kind buf start, convert base familyid content = some (kind, buf, start) →
        kind = .uf2 ∧ convert base' g buf = some (.bin, filled content, base) ∧
          ∀ mem, place (piecesOf (blocksOf buf)) mem =
            Piece.write ⟨base.toNat, filled content⟩ mem := by
  have hne : content ≠ [] := fun h => by
    rw [h] at hlen
    exact absurd hlen (by decide)
  have hsome := @convertToUf2_isSome base familyid content
  have hcases := or_iff_right (b := (0 ≤ familyid ∧ familyid < 2 ^ 32) ∧ 0 ≤ base ∧
    base + 256 * ((content.length + 255) / 256 - 1 : Nat) < 2 ^ 32) hne
  rw [hcases] at hsome
  rw [convert_binary huf2 hhex]
  constructor
  · rw [← hsome, Option.isSome_iff_exists]
    constructor
    · rintro ⟨r, hr⟩
      obtain ⟨outbuf, hout, -⟩ := Option.map_eq_some_iff.mp hr
      exact ⟨outbuf, hout⟩
    · rintro ⟨outbuf, hout⟩
      exact ⟨_, Option.map_eq_some_iff.mpr ⟨outbuf, hout, rfl⟩⟩
  · intro kind buf start hr
    obtain ⟨outbuf, hout, hmade⟩ := Option.map_eq_some_iff.mp hr
    obtain ⟨rfl, hrest⟩ := Prod.mk.inj hmade
    obtain ⟨rfl, -⟩ := Prod.mk.inj hrest
    have hbase : 0 ≤ base := (hsome.mp (Option.isSome_iff_exists.mpr ⟨outbuf, hout⟩)).2.1
    have henc := encoded_convertToUf2 hout hbase
    have hjoined := chunks_joined base.toNat content
    have hhead := @head_chunks content base.toNat hne
    have hpieces : chunks base.toNat content ≠ [] := fun h => by
      rw [h] at hhead
      cases hhead
    have hnear : Near (((chunks base.toNat content).head?.map Piece.addr).getD 0)
        (chunks base.toNat content) := by
      rw [hhead]
      exact near_of_joined hjoined
    have hstart : ((chunks base.toNat content).head?.map fun p => (p.addr : Int)) =
        some base := by
      have hcast := congrArg (Option.map fun n : Nat => (n : Int)) hhead
      rw [Option.map_map] at hcast
      refine hcast.trans (congrArg some ?_)
      exact Int.toNat_of_nonneg hbase
    refine ⟨rfl, ?_, fun mem => ?_⟩
    · rw [convert_uf2 (henc.isUf2 hpieces), (henc.decode hg).mpr ⟨hnear, rfl⟩, hhead, hstart,
        Option.getD_some, Option.getD_some, hjoined.assemble_eq, data_chunks]
      rfl
    · rw [henc.piecesOf, place_joined hjoined, data_chunks]

/-- Nine bytes, at the start of the flash. -/
theorem uf2_round_trip_nine : ∃ buf start,
    convert 0x10000000 0xe48bff59 [1, 2, 3, 4, 5, 6, 7, 8, 9] = some (.uf2, buf, start) ∧
      convert 0x2000 0 buf = some (.bin, filled [1, 2, 3, 4, 5, 6, 7, 8, 9], 0x10000000) := by
  obtain ⟨hok, hback⟩ := @uf2_round_trip 0x10000000 0x2000 0xe48bff59 0
    [1, 2, 3, 4, 5, 6, 7, 8, 9] (by decide) (by decide) (by decide) (Or.inl rfl)
  obtain ⟨r, hr⟩ := hok.mpr (by decide)
  obtain ⟨hkind, hconvert, -⟩ := hback r.1 r.2.1 r.2.2 hr
  exact ⟨r.2.1, r.2.2, hkind ▸ hr, hconvert⟩

end Uf2
