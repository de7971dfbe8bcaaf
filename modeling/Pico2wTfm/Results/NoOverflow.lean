import Pico2wTfm.Partition.ShippedRun
import Pico2wTfm.Results.ClientImages

/-!
# Results — NoOverflow

The integers of the shipped model.  A sum of one of its layers is computed in `int32_t`, and its bound
is a property of the weights alone (`Conv.Fits`, `Fc.Fits`): every channel of the model has it, so no
image makes any sum overflow, and no scale that is divided by is zero.  That a layer goes through
these sums is `Conv.layer_cut` and `Fc.layer_cut`.

* `shipped_no_overflow`: at every sum of every request.
-/

namespace TinyMaix
open Bytes Footprint

/-- A convolution that is entered at `σ` computes all its sums safely. -/
def Conv.NoOverflow (e : Env) (L : Conv) (σ : Logged Mem Cell) : Prop :=
  ∀ y < L.out.h, ∀ x < L.out.w, ∀ c < L.out.c, L.Safe e c (L.untilSum e y x c σ).2.mem

/-- So does a fully connected layer. -/
def Fc.NoOverflow (e : Env) (L : Fc) (σ : Logged Mem Cell) : Prop :=
  ∀ c < L.out.c, L.Safe e c (L.untilSum e c σ).2.mem

variable {e : Env}

/-- Weights that fit are enough, whatever the input is. -/
theorem Conv.noOverflow {L : Conv} (hp : L.Plain) (h : ∀ c < L.out.c, L.Fits e c)
    (σ : Logged Mem Cell) : L.NoOverflow e σ := by
  intro y hy x hx c hc
  -- the input is what is there
  have hin : σ.mem.Holds L.input.data L.input.size fun i =>
      σ.mem.bytes L.input.data.region (L.input.data.off + i) := fun _ _ => rfl
  have hsum := untilSum_ends (e := e) hp hy hx hc.le σ hin
  exact (h c hc).safe hp hc hsum.2

theorem Fc.noOverflow {L : Fc} (hp : L.Plain) (h : ∀ c < L.out.c, L.Fits e c)
    (σ : Logged Mem Cell) : L.NoOverflow e σ := by
  intro c hc
  exact (h c hc).safe hp

end TinyMaix

namespace Partition
open Bytes Footprint TinyMaix

section Request

variable {dev : Device} {f : Outcome} {msg : Msg} {s : Service}

/-- **No image makes the shipped model overflow**, and it divides by no zero. -/
theorem shipped_no_overflow (hs : Shipped s) (hfl : dev.fl = ieee754) :
    let u := preprocessed dev (received f msg s.fresh)
    (∀ k < 3, ((layerAt (u.env dev) k).conv (u.env dev)).NoOverflow (u.env dev) (entering dev u k)) ∧
      ((layerAt (u.env dev) 4).fc (u.env dev)).NoOverflow (u.env dev) (entering dev u 4) := by
  intro u
  have he : (u.env dev).Ships := ships_preprocessed hs
  constructor
  · intro k hk
    rw [conv_mnist he hk]
    exact Conv.noOverflow (plain_mnistConv hk) (fun c hc => fits_mnistConv he hfl hk hc) _
  · rw [fc_four he]
    exact Fc.noOverflow plain_mnistFc (fun c hc => fits_mnistFc he hc) _

end Request

/-- The sums for a white image. -/
theorem white_no_overflow :
    let r := inferenceRequest 784 (List.replicate 784 255)
    let u := preprocessed mnistDevice (received r.1 r.2 mnistLoaded.fresh)
    let e := u.env mnistDevice
    (∀ k < 3, ((layerAt e k).conv e).NoOverflow e (entering mnistDevice u k)) ∧
      ((layerAt e 4).fc e).NoOverflow e (entering mnistDevice u 4) :=
  shipped_no_overflow shipped_mnistLoaded rfl

end Partition
