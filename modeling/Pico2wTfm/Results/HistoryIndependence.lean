import Pico2wTfm.Partition.ShippedClass
import Pico2wTfm.Results.Saturation

/-!
# Results — HistoryIndependence

The six layers of the shipped model share one buffer, and three tables that nobody clears.  All the
same the class of an image depends on the image alone: each layer finds in its input what the one
before it wrote in the same run, and in the tables what it wrote there itself.

* `shipped_reply`: the reply to a request, as a function of its image;
* `history_independent`: it is the same in any two states that can be reached.
-/

namespace Partition
open Bytes Footprint TinyMaix

section Request

variable {dev : Device} {f : Outcome} {msg : Msg} {s : Service} {h : List (Input × Service)}

/-- **The reply** to a request that brings an image. -/
theorem shipped_reply (r : Serves dev h s) (hs : Shipped s) (hd : Delivered f msg)
    (hn : msg.inSize = 28 * 28) :
    replyStatus (serve dev f msg s).trace = some psaSuccess ∧
      written (serve dev f msg s).trace = if 4 ≤ msg.outSize then
        leBytes 4 (BitVec.ofInt 32 (mnistClass dev.fl fun i => msg.inVec.getD i 0)).toNat
      else [] := by
  obtain ⟨u, hu⟩ : ∃ u, u = preprocessed dev (received f msg s.fresh) := ⟨_, rfl⟩
  obtain ⟨hok, hclass⟩ := shipped_answer r hs hd hn hu
  have hb : s.gMdl.b.region = .model := by
    rw [(r.inStep.2 hs.loaded).b]
    rfl
  obtain ⟨status, class_⟩ := delivered_ok hs.loaded hd hb hu hok
  rw [hclass] at class_
  exact ⟨status, class_⟩

/-- Only a `LOAD` takes the model away. -/
theorem Shipped.serve (hs : Shipped s) (r : Serves dev h s)
    (ht : msg.type ≠ tinymaixIpcLoadEncryptedModel) : Shipped (serve dev f msg s) := by
  have hb : s.fresh.gModelLoaded = true → s.fresh.gMdl.b.region = .model := by
    intro hl
    rw [show s.fresh.gMdl.b = s.gMdl.b from rfl, (r.inStep.2 hl).b]
    rfl
  refine hs.congr ?_
  rw [Partition.serve]
  by_cases hget : f.get ≠ psaSuccess
  · rw [if_pos hget]
    rfl
  · rw [if_neg hget]
    exact handle_gate hb ht

variable {f' : Outcome} {s' : Service} {h' : List (Input × Service)}

/-- **Nothing that is left over matters**: in any two states with the shipped model, an image gets the
same status and the same class. -/
theorem history_independent (r : Serves dev h s) (r' : Serves dev h' s') (hs : Shipped s)
    (hs' : Shipped s') (hd : Delivered f msg) (hd' : Delivered f' msg) (hn : msg.inSize = 28 * 28) :
    replyStatus (serve dev f msg s).trace = replyStatus (serve dev f' msg s').trace ∧
      written (serve dev f msg s).trace = written (serve dev f' msg s').trace := by
  obtain ⟨status, class_⟩ := shipped_reply r hs hd hn
  obtain ⟨status', class'⟩ := shipped_reply r' hs' hd' hn
  exact ⟨status.trans status'.symm, class_.trans class'.symm⟩

end Request

/-- The device after an inference of the corner. -/
def cornerSeen : Service := serve mnistDevice cornerRequest.1 cornerRequest.2 mnistLoaded

theorem serves_cornerSeen : Serves mnistDevice
    [(loadRequest, mnistLoaded), (cornerRequest, cornerSeen)] cornerSeen :=
  .more rfl (.more rfl (.refl _))

theorem shipped_cornerSeen : Shipped cornerSeen :=
  shipped_mnistLoaded.serve serves_mnistLoaded (by decide)

/-- The corner again, and the corner for the first time. -/
theorem history_independent_corner :
    replyStatus (serve mnistDevice cornerRequest.1 cornerRequest.2 cornerSeen).trace =
        replyStatus (serve mnistDevice cornerRequest.1 cornerRequest.2 mnistLoaded).trace ∧
      written (serve mnistDevice cornerRequest.1 cornerRequest.2 cornerSeen).trace =
        written (serve mnistDevice cornerRequest.1 cornerRequest.2 mnistLoaded).trace :=
  history_independent serves_cornerSeen serves_mnistLoaded shipped_cornerSeen shipped_mnistLoaded
    delivered_cornerRequest delivered_cornerRequest inSize_cornerRequest

end Partition
