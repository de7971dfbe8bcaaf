import Pico2wTfm.Support.Bytes
import Pico2wTfm.Support.Stretch
import Pico2wTfm.Support.Ieee

/-!
# TinyMaix — Machine

What the inference engine computes on: the types and constants of `tinymaix.h` and `tm_port.h`,
and the static objects its pointers reach.  A pointer is a region and a byte offset in it.  The
engine writes `static_main_buf` and the three scratch tables of `tm_layers.c`; it only reads the
decrypted model and the image, which are part of the environment of a call (`Env`).

Every load and store is logged, so that what a call accesses is a property of its log.  An index
past the end of an object is not an error here: the regions are unbounded and the log shows the
offset.  Integer arithmetic is exact, since an `int` overflow is undefined in C.

`FloatOps` is the floating-point unit, on bit patterns; `ieee754` is the one the target has.
-/

namespace TinyMaix
open Bytes Footprint

/-! ### Floating point -/

/-- `float`, as its bit pattern; `sctype_t` is `float`. -/
abbrev F32 := BitVec 32

/-- `double`, as its bit pattern. -/
abbrev F64 := BitVec 64

/-- The floating-point operations the engine uses. -/
structure FloatOps where
  ofInt : Int → F32
  add : F32 → F32 → F32
  sub : F32 → F32 → F32
  mul : F32 → F32 → F32
  div : F32 → F32 → F32
  lt : F32 → F32 → Bool
  /-- `(int)x` -/
  toI32 : F32 → Int
  /-- `(uint32_t)x` -/
  toU32 : F32 → Int
  /-- `(double)x` -/
  widen : F32 → F64
  divD : F64 → F64 → F64
  /-- `(int32_t)x` of a `double` -/
  toI32D : F64 → Int

/-- IEEE 754 binary32 and binary64 with round to nearest even; conversions to integers truncate
and saturate. -/
def ieee754 : FloatOps where
  ofInt n := BitVec.ofNat 32 (Ieee.ofInt Ieee.binary32 n)
  add x y := BitVec.ofNat 32 (Ieee.add Ieee.binary32 x.toNat y.toNat)
  sub x y := BitVec.ofNat 32 (Ieee.sub Ieee.binary32 x.toNat y.toNat)
  mul x y := BitVec.ofNat 32 (Ieee.mul Ieee.binary32 x.toNat y.toNat)
  div x y := BitVec.ofNat 32 (Ieee.div Ieee.binary32 x.toNat y.toNat)
  lt x y := Ieee.lt Ieee.binary32 x.toNat y.toNat
  toI32 x := Ieee.toInt Ieee.binary32 (-2 ^ 31) (2 ^ 31 - 1) x.toNat
  toU32 x := Ieee.toInt Ieee.binary32 0 (2 ^ 32 - 1) x.toNat
  widen x := BitVec.ofNat 64 (Ieee.convert Ieee.binary32 Ieee.binary64 x.toNat)
  divD x y := BitVec.ofNat 64 (Ieee.div Ieee.binary64 x.toNat y.toNat)
  toI32D x := Ieee.toInt Ieee.binary64 (-2 ^ 31) (2 ^ 31 - 1) x.toNat

/-! ### Constants -/

def tmMdlInt8 : Nat := 0
/-- `TM_MDL_TYPE` of the partition's `tm_port.h`. -/
def tmMdlType : Nat := tmMdlInt8
/-- `'XIAM'`, the bytes `MAIX` in memory. -/
def tmMdlMagic : Nat := 0x5849414D
def tmAlignSize : Nat := 8
def tmFastscaleShift : Nat := 8
def tmMaxCsize : Nat := 16
def tmMaxKsize : Nat := 9
def tmMaxKcsize : Nat := 144

/-- `tm_err_t`. -/
inductive TmErr where
  | ok | err | magic | unsupport | oom | layertype | dims | todo | mdltype | ksize
deriving DecidableEq, Repr

/-- `tm_pp_t`. -/
inductive TmPp where
  | none | fp2int | uint2int | uint2fp01 | uint2fpn11 | uint2dtype
deriving DecidableEq, Repr

/-- `tm_layer_type_t`. -/
inductive TmLayerType where
  | conv2d | gap | fc | softmax | reshape | dwconv2d | add
deriving DecidableEq, Repr

/-- The layer type a `type` field denotes. -/
def TmLayerType.ofCode : Nat → Option TmLayerType
  | 0 => some conv2d
  | 1 => some gap
  | 2 => some fc
  | 3 => some softmax
  | 4 => some reshape
  | 5 => some dwconv2d
  | 6 => some add
  | _ => none

def tmActRelu : Nat := 1
def tmActRelu6 : Nat := 3
def tmActMaxcnt : Nat := 6

/-! ### Memory -/

/-- The static objects a pointer of the engine can point into; `null` is no object. -/
inductive Region where
  | null | main | model | pic | sbuf | kOft | sumscale | outs
deriving DecidableEq, Repr

/-- A cell: a region and an offset.  The offset counts bytes, and elements in the tables `kOft`,
`sumscale` and `outs`. -/
abbrev Cell := Region × Int

structure Ptr where
  region : Region
  off : Int
deriving DecidableEq, Repr

namespace Ptr

def null : Ptr := ⟨.null, 0⟩

/-- `p + n`, in bytes. -/
def add (p : Ptr) (n : Int) : Ptr := ⟨p.region, p.off + n⟩

@[simp] theorem add_region (p : Ptr) (n : Int) : (p.add n).region = p.region := rfl
@[simp] theorem add_off (p : Ptr) (n : Int) : (p.add n).off = p.off + n := rfl
@[simp] theorem add_zero (p : Ptr) : p.add 0 = p := by simp [add]
theorem add_add (p : Ptr) (m n : Int) : (p.add m).add n = p.add (m + n) := by
  simp [add, Int.add_assoc]

end Ptr

/-- `tm_mat_t`. -/
structure TmMat where
  dims : Nat
  h : Nat
  w : Nat
  c : Nat
  data : Ptr
deriving DecidableEq, Repr

/-- A zeroed `tm_mat_t`. -/
def TmMat.zero : TmMat := ⟨0, 0, 0, 0, .null⟩

/-- `TM_MATP(mat, y, x, ch)`. -/
def tmMatp (mat : TmMat) (y x ch : Int) : Ptr := mat.data.add ((y * mat.w + x) * mat.c + ch)

/-- The static objects the engine writes. -/
structure Mem where
  bytes : Region → Int → Byte
  kOft : Int → Int
  sumscale : Int → Int
  outs : Int → TmMat

/-- The content of a cell. -/
inductive Content where
  | byte (b : Byte)
  | int (n : Int)
  | mat (m : TmMat)

def Mem.val (m : Mem) : Cell → Content
  | (.kOft, i) => .int (m.kOft i)
  | (.sumscale, i) => .int (m.sumscale i)
  | (.outs, i) => .mat (m.outs i)
  | (r, i) => .byte (m.bytes r i)

/-- What a call of the engine only reads: the model, the image, the address of
`static_main_buf`, and the floating-point unit. -/
structure Env where
  model : Int → Byte
  pic : Int → Byte
  mainAddr : Nat
  fl : FloatOps

/-- An engine program. -/
abbrev Eng := Prog Mem Cell

def rd (r : Region) (i : Int) : Access Cell := ⟨(r, i), false⟩
def wr (r : Region) (i : Int) : Access Cell := ⟨(r, i), true⟩

/-- The byte `p` points to. -/
def Env.byteAt (e : Env) (m : Mem) (p : Ptr) : Byte :=
  match p.region with
  | .model => e.model p.off
  | .pic => e.pic p.off
  | r => m.bytes r p.off

def loadByte (e : Env) (p : Ptr) : Eng Byte :=
  atom (rd p.region p.off) fun m => (e.byteAt m p, m)

def Mem.setByte (m : Mem) (p : Ptr) (b : Byte) : Mem :=
  { m with bytes := fun r i => if r = p.region ∧ i = p.off then b else m.bytes r i }

def storeByte (p : Ptr) (b : Byte) : Eng Unit :=
  atom (wr p.region p.off) fun m => ((), m.setByte p b)

/-- The `w`-byte little-endian word at `p`. -/
def loadLe (e : Env) : Nat → Ptr → Eng Nat
  | 0, _ => pure 0
  | w + 1, p => do
      let b ← loadByte e p
      let v ← loadLe e w (p.add 1)
      pure (b.toNat + 256 * v)

def storeLe : Nat → Ptr → Nat → Eng Unit
  | 0, _, _ => pure ()
  | w + 1, p, v => do
      storeByte p (BitVec.ofNat 8 v)
      storeLe w (p.add 1) (v / 256)

def loadU8 (e : Env) (p : Ptr) : Eng Nat := loadLe e 1 p
def loadU16 (e : Env) (p : Ptr) : Eng Nat := loadLe e 2 p
def loadU32 (e : Env) (p : Ptr) : Eng Nat := loadLe e 4 p

/-- The signed value of a 32-bit word. -/
def toI32 (n : Nat) : Int := (BitVec.ofNat 32 n).toInt

def loadI32 (e : Env) (p : Ptr) : Eng Int := return toI32 (← loadLe e 4 p)
def loadF32 (e : Env) (p : Ptr) : Eng F32 := return BitVec.ofNat 32 (← loadLe e 4 p)
def storeF32 (p : Ptr) (x : F32) : Eng Unit := storeLe 4 p x.toNat

/-- An `int8_t` load: `mtype_t` and `wtype_t` are `int8_t`. -/
def loadI8 (e : Env) (p : Ptr) : Eng Int := return (← loadByte e p).toInt

/-- A store of `(int8_t)v`: the narrowing cast keeps the low eight bits. -/
def storeI8 (p : Ptr) (v : Int) : Eng Unit := storeByte p (BitVec.ofInt 8 v)

def Mem.setKOft (m : Mem) (i v : Int) : Mem :=
  { m with kOft := fun j => if j = i then v else m.kOft j }

def Mem.setSumscale (m : Mem) (i v : Int) : Mem :=
  { m with sumscale := fun j => if j = i then v else m.sumscale j }

def Mem.setOut (m : Mem) (i : Int) (o : TmMat) : Mem :=
  { m with outs := fun j => if j = i then o else m.outs j }

def loadKOft (i : Int) : Eng Int := atom (rd .kOft i) fun m => (m.kOft i, m)

def storeKOft (i v : Int) : Eng Unit := atom (wr .kOft i) fun m => ((), m.setKOft i v)

def loadSumscale (i : Int) : Eng Int := atom (rd .sumscale i) fun m => (m.sumscale i, m)

def storeSumscale (i v : Int) : Eng Unit :=
  atom (wr .sumscale i) fun m => ((), m.setSumscale i v)

def loadOut (i : Int) : Eng TmMat := atom (rd .outs i) fun m => (m.outs i, m)

def storeOut (i : Int) (o : TmMat) : Eng Unit := atom (wr .outs i) fun m => ((), m.setOut i o)

/-! ### What loads and stores do -/

/-- The `w`-byte little-endian word at `p`. -/
def Env.leAt (e : Env) (m : Mem) : Nat → Ptr → Nat
  | 0, _ => 0
  | w + 1, p => (e.byteAt m p).toNat + 256 * e.leAt m w (p.add 1)

/-- The `float` at `p`. -/
def Env.f32At (e : Env) (m : Mem) (p : Ptr) : F32 := BitVec.ofNat 32 (e.leAt m 4 p)

/-- The `int8_t` at `p`. -/
def Env.i8At (e : Env) (m : Mem) (p : Ptr) : Int := (e.byteAt m p).toInt

section Loads

variable (e : Env)

theorem loadByte_reads (p : Ptr) :
    Reads Mem.val (loadByte e p) (span p.region p.off 1 false) fun m => e.byteAt m p := fun _ =>
  (Runs.atom (fun _ h => ⟨rfl, h⟩) fun _ _ _ => rfl).of_eq (span_one ..).symm

theorem loadI8_reads (p : Ptr) :
    Reads Mem.val (loadI8 e p) (span p.region p.off 1 false) fun m => e.i8At m p :=
  (loadByte_reads e p).map BitVec.toInt

theorem loadLe_reads (w : Nat) (p : Ptr) :
    Reads Mem.val (loadLe e w p) (span p.region p.off w false) fun m => e.leAt m w p := by
  induction w generalizing p with
  | zero => exact (Reads.pure 0).conseq (span_zero ..).symm fun _ => rfl
  | succ w ih =>
      refine ((loadByte_reads e p).bind fun b => (ih (p.add 1)).map fun v => b.toNat + 256 * v).conseq
        ?_ fun _ => rfl
      rw [Ptr.add_region, Ptr.add_off, Nat.add_comm]
      exact span_add p.region p.off 1 w false

theorem loadI32_reads (p : Ptr) :
    Reads Mem.val (loadI32 e p) (span p.region p.off 4 false) fun m => toI32 (e.leAt m 4 p) :=
  (loadLe_reads e 4 p).map toI32

theorem loadF32_reads (p : Ptr) :
    Reads Mem.val (loadF32 e p) (span p.region p.off 4 false) fun m =>
      BitVec.ofNat 32 (e.leAt m 4 p) :=
  (loadLe_reads e 4 p).map (BitVec.ofNat 32)

end Loads

theorem loadKOft_reads (i : Int) :
    Reads Mem.val (loadKOft i) (span .kOft i 1 false) fun m => m.kOft i := fun _ =>
  (Runs.atom (fun _ h => ⟨rfl, h⟩) fun _ _ _ => rfl).of_eq (span_one ..).symm

theorem loadSumscale_reads (i : Int) :
    Reads Mem.val (loadSumscale i) (span .sumscale i 1 false) fun m => m.sumscale i := fun _ =>
  (Runs.atom (fun _ h => ⟨rfl, h⟩) fun _ _ _ => rfl).of_eq (span_one ..).symm

theorem loadOut_reads (i : Int) :
    Reads Mem.val (loadOut i) (span .outs i 1 false) fun m => m.outs i := fun _ =>
  (Runs.atom (fun _ h => ⟨rfl, h⟩) fun _ _ _ => rfl).of_eq (span_one ..).symm

/-! A store ends in the memory it makes. -/

section Stores

variable {P : Mem → Prop} {Q : Unit → Mem → Prop}

theorem Mem.val_setByte {m : Mem} {p : Ptr} {b : Byte} {k : Cell} (h : k ≠ (p.region, p.off)) :
    (m.setByte p b).val k = m.val k := by
  obtain ⟨r, i⟩ := k
  have hk : ¬(r = p.region ∧ i = p.off) := fun hk => h (by rw [hk.1, hk.2])
  cases r <;> simp only [Mem.val, Mem.setByte, if_neg hk]

theorem storeByte_runs {p : Ptr} {b : Byte} (h : ∀ m, P m → Q () (m.setByte p b)) :
    Runs Mem.val P (storeByte p b) (span p.region p.off 1 true) Q :=
  (Runs.atom h fun _ _ hk => Mem.val_setByte fun e => hk (by rw [e]; rfl)).of_eq
    (span_one ..).symm

theorem storeI8_runs {p : Ptr} {v : Int}
    (h : ∀ m, P m → Q () (m.setByte p (BitVec.ofInt 8 v))) :
    Runs Mem.val P (storeI8 p v) (span p.region p.off 1 true) Q := storeByte_runs h

theorem storeKOft_runs {i v : Int}
    (h : ∀ m, P m → Q () (m.setKOft i v)) :
    Runs Mem.val P (storeKOft i v) (span .kOft i 1 true) Q := by
  refine (Runs.atom h fun m k hk => ?_).of_eq (span_one ..).symm
  obtain ⟨r, j⟩ := k
  cases r <;> try rfl
  have hj : j ≠ i := fun e => hk (by rw [e]; rfl)
  simp only [Mem.val, Mem.setKOft, if_neg hj]

theorem storeSumscale_runs {i v : Int}
    (h : ∀ m, P m → Q () (m.setSumscale i v)) :
    Runs Mem.val P (storeSumscale i v) (span .sumscale i 1 true) Q := by
  refine (Runs.atom h fun m k hk => ?_).of_eq (span_one ..).symm
  obtain ⟨r, j⟩ := k
  cases r <;> try rfl
  have hj : j ≠ i := fun e => hk (by rw [e]; rfl)
  simp only [Mem.val, Mem.setSumscale, if_neg hj]

theorem storeOut_runs {i : Int} {o : TmMat}
    (h : ∀ m, P m → Q () (m.setOut i o)) :
    Runs Mem.val P (storeOut i o) (span .outs i 1 true) Q := by
  refine (Runs.atom h fun m k hk => ?_).of_eq (span_one ..).symm
  obtain ⟨r, j⟩ := k
  cases r <;> try rfl
  have hj : j ≠ i := fun e => hk (by rw [e]; rfl)
  simp only [Mem.val, Mem.setOut, if_neg hj]

/-- The memory after the word `v` is stored at `p`. -/
def Mem.setLe (m : Mem) : Nat → Ptr → Nat → Mem
  | 0, _, _ => m
  | w + 1, p, v => (m.setByte p (BitVec.ofNat 8 v)).setLe w (p.add 1) (v / 256)

theorem storeLe_runs {w : Nat} {p : Ptr} {v : Nat} (h : ∀ m, P m → Q () (m.setLe w p v)) :
    Runs Mem.val P (storeLe w p v) (span p.region p.off w true) Q := by
  induction w generalizing p v P with
  | zero => exact (Runs.pure h).of_eq (span_zero ..).symm
  | succ w ih =>
      have hs : Runs Mem.val P (storeByte p (BitVec.ofNat 8 v)) (span p.region p.off 1 true)
          fun _ m => Q () (m.setLe w (p.add 1) (v / 256)) := storeByte_runs h
      refine (hs.bind fun _ => ih fun _ hm => hm).of_eq ?_
      rw [Ptr.add_region, Ptr.add_off, Nat.add_comm]
      exact span_add p.region p.off 1 w true

theorem storeF32_runs {p : Ptr} {x : F32} (h : ∀ m, P m → Q () (m.setLe 4 p x.toNat)) :
    Runs Mem.val P (storeF32 p x) (span p.region p.off 4 true) Q := storeLe_runs h

end Stores

/-! What a step does not write. -/

section Keeps

variable {T : Set (Access Cell)} {σ σ' : Logged Mem Cell} {i : Int}

theorem outs_keep (h : Extends Mem.val T σ σ') (hi : ⟨(.outs, i), true⟩ ∉ T) :
    σ'.mem.outs i = σ.mem.outs i := Content.mat.inj (h.keep hi)

theorem main_keep (h : Extends Mem.val T σ σ') (hi : ⟨(.main, i), true⟩ ∉ T) :
    σ'.mem.bytes .main i = σ.mem.bytes .main i := Content.byte.inj (h.keep hi)

end Keeps

/-! ### Words in memory -/

section Words

variable {m m' : Mem} {p : Ptr}

theorem Mem.setLe_outside {w : Nat} {v : Nat} {r : Region} {i : Int}
    (h : r ≠ p.region ∨ i < p.off ∨ p.off + w ≤ i) : (m.setLe w p v).bytes r i = m.bytes r i := by
  induction w generalizing m p v with
  | zero => rfl
  | succ w ih =>
      have hp : ¬(r = p.region ∧ i = p.off) := by
        rintro ⟨hr, hi⟩
        rcases h with h | h | h
        · exact h hr
        · omega
        · push_cast at h; omega
      rw [Mem.setLe, ih, Mem.setByte]
      · exact if_neg hp
      · rw [Ptr.add_region, Ptr.add_off]
        push_cast at h
        exact h.imp_right fun h => by omega

/-- Words at one place agree when the bytes there do. -/
theorem Env.leAt_congr (e : Env) {w : Nat}
    (h : ∀ i : Int, p.off ≤ i → i < p.off + w → m.bytes p.region i = m'.bytes p.region i) :
    e.leAt m w p = e.leAt m' w p := by
  induction w generalizing p with
  | zero => rfl
  | succ w ih =>
      have hbyte : e.byteAt m p = e.byteAt m' p := by
        have := h p.off le_rfl (by push_cast; omega)
        unfold Env.byteAt
        split <;> first | rfl | simp_all
      rw [Env.leAt, Env.leAt, hbyte, ih (p := p.add 1) fun i h₁ h₂ => h i ?_ ?_]
      · rw [Ptr.add_off] at h₁; omega
      · rw [Ptr.add_off] at h₂; push_cast; omega

theorem Env.i8At_congr (e : Env) (h : m.bytes p.region p.off = m'.bytes p.region p.off) :
    e.i8At m p = e.i8At m' p := by
  unfold Env.i8At Env.byteAt
  split <;> simp_all

theorem Env.f32At_congr (e : Env)
    (h : ∀ i : Int, p.off ≤ i → i < p.off + 4 → m.bytes p.region i = m'.bytes p.region i) :
    e.f32At m p = e.f32At m' p := by
  rw [Env.f32At, Env.f32At, e.leAt_congr (w := 4) h]

/-- A word that was stored is loaded. -/
theorem Env.leAt_setLe (e : Env) {w v : Nat} (hp : p.region = .main) :
    e.leAt (m.setLe w p v) w p = v % 256 ^ w := by
  induction w generalizing m p v with
  | zero => simp [Env.leAt, Nat.mod_one]
  | succ w ih =>
      have hbyte : e.byteAt (m.setLe (w + 1) p v) p = BitVec.ofNat 8 v := by
        rw [Env.byteAt, hp]
        show ((m.setByte p (BitVec.ofNat 8 v)).setLe w (p.add 1) (v / 256)).bytes .main p.off = _
        rw [Mem.setLe_outside (Or.inr (Or.inl (by rw [Ptr.add_off]; omega)))]
        exact if_pos ⟨hp.symm, rfl⟩
      rw [Env.leAt, hbyte, BitVec.toNat_ofNat, Mem.setLe, ih (p := p.add 1) hp,
        show 256 ^ (w + 1) = 256 * 256 ^ w by ring, Nat.mod_mul]

theorem Env.f32At_setLe (e : Env) {x : F32} (hp : p.region = .main) :
    e.f32At (m.setLe 4 p x.toNat) p = x := by
  have hx : x.toNat < 256 ^ 4 := x.isLt
  rw [Env.f32At, e.leAt_setLe hp, Nat.mod_eq_of_lt hx, BitVec.ofNat_toNat, BitVec.setWidth_eq]

end Words

end TinyMaix
