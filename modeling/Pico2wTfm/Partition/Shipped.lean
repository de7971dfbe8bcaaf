import Pico2wTfm.Models.MnistLayers
import Pico2wTfm.Partition.Package
import Pico2wTfm.Partition.Inference

/-!
# Partition — Shipped

The service with the shipped model: what a `LOAD` leads to on a device whose package is one of that
model (`shipped_load`).
-/

namespace Partition
open Bytes Footprint TinyMaix Encryptor

/-- The shipped model is loaded. -/
structure Shipped (s : Service) : Prop where
  loaded : s.gModelLoaded = true
  model : window s.gDecryptedModel 0 mdlData.length = mdlData

theorem Shipped.ships {s : Service} (h : Shipped s) (dev : Device) : (s.env dev).Ships := h.model

theorem Shipped.congr {s s' : Service} (hg : s'.gate = s.gate) (h : Shipped s) : Shipped s' := by
  obtain ⟨hl, hm, -, -, -⟩ := Gate.mk.inj hg
  exact ⟨hl.trans h.loaded, hm ▸ h.model⟩

section Load

variable {dev : Device} {iv : Cbc.Block 16} {f : Outcome} {msg : Msg} {s : Service}

theorem loads_ships {e : Env} (h : e.Ships) : e.Loads gDecryptedModelPtr := by
  obtain ⟨magic, type, -, -, sub⟩ := mdl_header
  constructor
  · exact (word_ships h (by decide)).trans magic
  · exact (word_ships h (by decide)).trans type
  · exact (word_ships h (by decide)).trans sub

/-- **A `LOAD` of the shipped model succeeds.** -/
theorem shipped_load (hp : dev.package = packageBytes dev.aes mdlData (deviceKey dev) iv)
    (hget : f.get = psaSuccess) (hf : f.CryptoOk) (ht : msg.type = tinymaixIpcLoadEncryptedModel) :
    Shipped (serve dev f msg s) := by
  have ho : Opens dev dev.package mdlData := by
    rw [hp]
    refine opens_package rfl ?_
    rw [Pkcs7.length_pad, length_mdlData]
    decide
  have hlen : dev.package.length ≤ tfmTinymaixMaxModelSize := by
    rw [hp, packageBytes_eq, length_encode, length_encryptModel, Pkcs7.length_pad, length_mdlData]
    decide
  obtain ⟨hok, -, hw⟩ := decryptModel_opens (s := s.fresh) hf.decryptOk ho
  have hpkg : (loadPackage dev f s.fresh).1 = psaSuccess := loadPackage_success.mpr ⟨hlen, hok⟩
  have hships : ((loadPackage dev f s.fresh).2.env dev).Ships := by
    rw [loadPackage_state hpkg]
    exact hw
  have hload := loadModel_success.mpr ⟨hpkg, loads_ships hships⟩
  have hserve : serve dev f msg s = handleLoad dev f msg s.fresh := by
    rw [serve, if_neg (not_not.mpr hget), handle, ht, if_neg (by decide), if_pos rfl]
  have hgate := (@handleLoad_gate dev f msg s.fresh).trans (loadModel_gate hload)
  obtain ⟨hl, hm, -, -, -⟩ := Gate.mk.inj hgate
  rw [hserve]
  exact ⟨hl, hm ▸ hships⟩

end Load

end Partition
