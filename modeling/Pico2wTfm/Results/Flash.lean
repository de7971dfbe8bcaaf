import Pico2wTfm.Results.Uf2RoundTrip

/-!
# Results — Flash

The images of a build in the flash.  `pico_uf2.sh` makes three UF2 files of them, and a device takes the
blocks of UF2 files as they come: of several files at once, in any order, and some of them again.

* `flash_any_order`: binary images that are apart, once their last blocks are filled up, are in the
  memory after all their blocks were written, in whatever order;
* `flash_images`: the three images of the script, where the one ends below the base of the next.
-/

namespace Uf2
open Bytes Placement

/-- A file that is converted as a binary file. -/
structure Binary (content : List Byte) : Prop where
  eight : 8 ≤ content.length
  notUf2 : isUf2 content = some false
  notHex : isHex content = false

/-- An image, filled up. -/
def flashed (p : Piece Byte) : Piece Byte := ⟨p.addr, filled p.data⟩

/-- The sectors are the blocks of the files, in any order, some of them more than once. -/
def SectorsOf (files sectors : List (List Byte)) : Prop :=
  ∀ b, b ∈ sectors ↔ ∃ buf ∈ files, b ∈ blocksOf buf

/-! ### Images and their blocks -/

section Images

variable {familyid : Int} {p : Piece Byte} {images : List (Piece Byte)} {start : Nat}

/-- The pieces of several images. -/
def chunksOf (images : List (Piece Byte)) : List (Piece Byte) :=
  images.flatMap fun p => chunks p.addr p.data

theorem stop_flashed : (flashed p).stop = p.addr + 256 * ((p.data.length + 255) / 256) := by
  rw [Piece.stop, flashed, length_filled]

/-- Image by image, or block by block. -/
theorem place_chunksOf {mem : Nat → Byte} :
    place (chunksOf images) mem = place (images.map flashed) mem := by
  induction images generalizing mem with
  | nil => rfl
  | cons p images ih =>
      have hsplit : place (chunksOf (p :: images)) mem =
          place (chunksOf images) (place (chunks p.addr p.data) mem) := List.foldl_append ..
      rw [hsplit, ih, place_joined (chunks_joined p.addr p.data), data_chunks]
      rfl

theorem ascending_chunksOf (h : Ascending start (images.map flashed)) :
    Ascending start (chunksOf images) := by
  induction images generalizing start with
  | nil => trivial
  | cons p images ih =>
      have hchunks := (chunks_joined p.addr p.data).append_ascending
        (congrArg (p.addr + List.length ·) (data_chunks p.addr p.data)) (ih h.2)
      refine Ascending.mono ?_ hchunks
      exact h.1

/-- The conversion of one image. -/
theorem convert_image (hb : Binary p.data) (hf : 0 ≤ familyid ∧ familyid < 2 ^ 32)
    (hstop : (flashed p).stop ≤ 2 ^ 32) :
    ∃ buf, convert p.addr familyid p.data = some (.uf2, buf, (p.addr : Int)) ∧
      piecesOf (blocksOf buf) = chunks p.addr p.data := by
  rw [stop_flashed] at hstop
  have hsome : (convertToUf2 p.addr familyid p.data).isSome = true :=
    convertToUf2_isSome.mpr (Or.inr ⟨hf, Int.natCast_nonneg _, by
      have := hb.eight
      omega⟩)
  obtain ⟨buf, hbuf⟩ := Option.isSome_iff_exists.mp hsome
  refine ⟨buf, ?_, (encoded_convertToUf2 hbuf (Int.natCast_nonneg _)).piecesOf⟩
  rw [convert_binary hb.notUf2 hb.notHex, hbuf, Option.map_some]

/-- What is converted, and the pieces of the files. -/
theorem convert_images (hb : ∀ p ∈ images, Binary p.data) (hf : 0 ≤ familyid ∧ familyid < 2 ^ 32)
    (hstop : ∀ p ∈ images, (flashed p).stop ≤ 2 ^ 32) :
    ∃ files, List.Forall₂ (fun p buf => convert p.addr familyid p.data = some (.uf2, buf, (p.addr : Int)))
        images files ∧
      List.Forall₂ (fun p buf => piecesOf (blocksOf buf) = chunks p.addr p.data) images files := by
  induction images with
  | nil => exact ⟨[], .nil, .nil⟩
  | cons p images ih =>
      obtain ⟨hp, hps⟩ := List.forall_mem_cons.mp hb
      obtain ⟨hp', hps'⟩ := List.forall_mem_cons.mp hstop
      obtain ⟨buf, hbuf, hpieces⟩ := convert_image hp hf hp'
      obtain ⟨files, hfiles, hall⟩ := ih hps hps'
      exact ⟨buf :: files, .cons hbuf hfiles, .cons hpieces hall⟩

theorem mem_piecesOf {blocks : List (List Byte)} :
    p ∈ piecesOf blocks ↔ ∃ b ∈ blocks, noFlash b = false ∧ pieceOf b = p := by
  rw [piecesOf, List.mem_map]
  constructor
  · rintro ⟨b, hb, rfl⟩
    obtain ⟨hmem, hflash⟩ := List.mem_filter.mp hb
    exact ⟨b, hmem, Bool.not_eq_true' _ ▸ hflash, rfl⟩
  · rintro ⟨b, hmem, hflash, rfl⟩
    exact ⟨b, List.mem_filter.mpr ⟨hmem, by rw [hflash]; rfl⟩, rfl⟩

/-- The pieces of the sectors are those of the files. -/
theorem mem_piecesOf_sectors {files sectors : List (List Byte)} (hs : SectorsOf files sectors) :
    p ∈ piecesOf sectors ↔ ∃ buf ∈ files, p ∈ piecesOf (blocksOf buf) := by
  rw [mem_piecesOf]
  constructor
  · rintro ⟨b, hb, hflash⟩
    obtain ⟨buf, hbuf, hmem⟩ := (hs b).mp hb
    exact ⟨buf, hbuf, mem_piecesOf.mpr ⟨b, hmem, hflash⟩⟩
  · rintro ⟨buf, hbuf, hp⟩
    obtain ⟨b, hmem, hflash⟩ := mem_piecesOf.mp hp
    exact ⟨b, (hs b).mpr ⟨buf, hbuf, hmem⟩, hflash⟩

theorem mem_chunksOf {files : List (List Byte)}
    (h : List.Forall₂ (fun p buf => piecesOf (blocksOf buf) = chunks p.addr p.data) images files) :
    (∃ buf ∈ files, p ∈ piecesOf (blocksOf buf)) ↔ p ∈ chunksOf images := by
  induction h with
  | nil => simp [chunksOf]
  | cons hpieces _ ih =>
      rw [List.exists_mem_cons_iff, ih, hpieces, chunksOf, chunksOf, List.flatMap_cons,
        List.mem_append]

/-- **The images are in the memory**, in whatever order their blocks come. -/
theorem flash_any_order {files sectors : List (List Byte)}
    (hapart : Ascending start (images.map flashed))
    (h : List.Forall₂ (fun p buf => piecesOf (blocksOf buf) = chunks p.addr p.data) images files)
    (hs : SectorsOf files sectors) (mem : Nat → Byte) :
    place (piecesOf sectors) mem = place (images.map flashed) mem := by
  rw [← place_chunksOf]
  exact place_same (ascending_chunksOf hapart) fun p =>
    (mem_piecesOf_sectors hs).trans (mem_chunksOf h)

end Images

/-! ### The script -/

section Script

variable {bl2 tfmSNsSigned provisioningBundle : List Byte}

/-- The images of the script. -/
def imagesOf (bl2 tfmSNsSigned provisioningBundle : List Byte) : List (Piece Byte) :=
  [⟨0x10000000, bl2⟩, ⟨0x10011000, tfmSNsSigned⟩, ⟨0x1019F000, provisioningBundle⟩]

/-- The memory from `base` on. -/
def Holds (mem : Nat → Byte) (base : Nat) (content : List Byte) : Prop :=
  ∀ i v, content[i]? = some v → mem (base + i) = v

theorem holds_of_ascending {images : List (Piece Byte)} {p : Piece Byte} {mem : Nat → Byte}
    {start : Nat} (h : Ascending start (images.map flashed)) (hp : p ∈ images) :
    Holds (place (images.map flashed) mem) p.addr p.data := by
  intro i v hv
  obtain ⟨hi, -⟩ := List.getElem?_eq_some_iff.mp hv
  have hc : (flashed p).Covers (p.addr + i) := by
    refine ⟨Nat.le_add_right _ _, ?_⟩
    rw [stop_flashed]
    omega
  have hin : some (place (images.map flashed) mem (p.addr + i)) = _ :=
    place_inside h (List.mem_map_of_mem hp) hc
  rw [show (flashed p).addr = p.addr from rfl, Nat.add_sub_cancel_left,
    show (flashed p).data = filled p.data from rfl, filled, List.getElem?_append_left hi, hv] at hin
  exact Option.some.inj hin

/-- **The images of a build.**  Three binary images, the first two of which end below the base of the
next one: the script converts them, and a device that has taken all blocks of the three files, in any
order and some of them again, holds each image from its base on, and otherwise what it held but for
the filling of the last blocks. -/
theorem flash_images (h₁ : Binary bl2) (h₂ : Binary tfmSNsSigned) (h₃ : Binary provisioningBundle)
    (hbl2 : bl2.length ≤ 0x11000) (hsigned : tfmSNsSigned.length ≤ 0x18E000)
    (hbundle : provisioningBundle.length ≤ 2 ^ 32 - 0x1019F000) :
    ∃ f₁ f₂ f₃, picoUf2 bl2 tfmSNsSigned provisioningBundle =
        [some (.uf2, f₁, 0x10000000), some (.uf2, f₂, 0x10011000), some (.uf2, f₃, 0x1019F000)] ∧
      ∀ sectors, SectorsOf [f₁, f₂, f₃] sectors → ∀ mem,
        place (piecesOf sectors) mem =
            place ((imagesOf bl2 tfmSNsSigned provisioningBundle).map flashed) mem ∧
          ∀ p ∈ imagesOf bl2 tfmSNsSigned provisioningBundle,
            Holds (place (piecesOf sectors) mem) p.addr p.data := by
  have hapart : Ascending 0 ((imagesOf bl2 tfmSNsSigned provisioningBundle).map flashed) := by
    refine ⟨Nat.zero_le _, ?_, ?_, trivial⟩
    · rw [stop_flashed]
      show _ ≤ 0x10011000
      dsimp only
      omega
    · rw [stop_flashed]
      show _ ≤ 0x1019F000
      dsimp only
      omega
  have hbinary : ∀ p ∈ imagesOf bl2 tfmSNsSigned provisioningBundle, Binary p.data := by
    simp only [imagesOf, List.forall_mem_cons]
    exact ⟨h₁, h₂, h₃, fun _ hp => absurd hp List.not_mem_nil⟩
  have hstop : ∀ p ∈ imagesOf bl2 tfmSNsSigned provisioningBundle, (flashed p).stop ≤ 2 ^ 32 := by
    simp only [imagesOf, List.forall_mem_cons, stop_flashed]
    refine ⟨?_, ?_, ?_, fun _ hp => absurd hp List.not_mem_nil⟩
    all_goals omega
  obtain ⟨files, hconvert, hpieces⟩ := @convert_images 0xe48bff59 _ hbinary (by decide) hstop
  obtain ⟨f₁, rest₁, hf₁, hconvert₁, rfl⟩ := List.forall₂_cons_left_iff.mp hconvert
  obtain ⟨f₂, rest₂, hf₂, hconvert₂, rfl⟩ := List.forall₂_cons_left_iff.mp hconvert₁
  obtain ⟨f₃, rest₃, hf₃, hconvert₃, rfl⟩ := List.forall₂_cons_left_iff.mp hconvert₂
  obtain rfl := List.forall₂_nil_left_iff.mp hconvert₃
  refine ⟨f₁, f₂, f₃, ?_, fun sectors hs mem => ?_⟩
  · rw [picoUf2]
    exact congrArg₂ _ hf₁ (congrArg₂ _ hf₂ (congrArg₂ _ hf₃ rfl))
  · have heq := flash_any_order hapart hpieces hs mem
    exact ⟨heq, fun p hp => heq ▸ holds_of_ascending hapart hp⟩

/-- Small images. -/
theorem flash_images_small : ∃ f₁ f₂ f₃,
    picoUf2 [1, 2, 3, 4, 5, 6, 7, 8] [9, 8, 7, 6, 5, 4, 3, 2, 1] [8, 7, 6, 5, 4, 3, 2, 1] =
        [some (.uf2, f₁, 0x10000000), some (.uf2, f₂, 0x10011000), some (.uf2, f₃, 0x1019F000)] ∧
      Holds (place (piecesOf (blocksOf f₃ ++ blocksOf f₁ ++ blocksOf f₂ ++ blocksOf f₁)) fun _ => 0xFF)
        0x10011000 [9, 8, 7, 6, 5, 4, 3, 2, 1] := by
  obtain ⟨f₁, f₂, f₃, hmade, hheld⟩ := @flash_images
    [1, 2, 3, 4, 5, 6, 7, 8] [9, 8, 7, 6, 5, 4, 3, 2, 1] [8, 7, 6, 5, 4, 3, 2, 1] ⟨by decide, by decide, by decide⟩
    ⟨by decide, by decide, by decide⟩ ⟨by decide, by decide, by decide⟩ (by decide) (by decide)
    (by decide)
  refine ⟨f₁, f₂, f₃, hmade, ?_⟩
  have hsectors : SectorsOf [f₁, f₂, f₃] (blocksOf f₃ ++ blocksOf f₁ ++ blocksOf f₂ ++ blocksOf f₁) := by
    intro b
    simp only [List.mem_append, List.exists_mem_cons_iff, List.not_mem_nil, false_and, exists_false,
      or_false]
    tauto
  exact (hheld _ hsectors fun _ => 0xFF).2 ⟨0x10011000, [9, 8, 7, 6, 5, 4, 3, 2, 1]⟩
    (List.mem_cons_of_mem _ List.mem_cons_self)

end Script

end Uf2
