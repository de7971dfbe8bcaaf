import Pico2wTfm.Results.Bounds
import Pico2wTfm.Results.GeneratedSource
import Pico2wTfm.Results.Networks
import Pico2wTfm.Results.ToolFiles

/-!
# Results — Deployment

From a header file with a model to the model in the memory of a device.  The tool parses the header,
packs what it lists under a key and writes the package out as C source; the source is built into a
device; the device decrypts the package when it is told to.  Three representations of one model lie
between the two ends, in two languages, and nothing but the bytes is handed on.

* `deployment`: on a device with the key of the run, a `LOAD` succeeds exactly when the listed bytes
  have the header of a model and fit, and then they are what is in memory;
* `deployed_class`: and the classes that the device answers with, in any history, are those of the
  network that the listed bytes lay out;
* `saved_key_reused`: a later run that is given the key file of an earlier one packs under its key,
  whatever happened to the other files.
-/

namespace Encryptor
open Bytes Pattern Replace

/-! ### A run of the tool -/

/-- The first array of the text is `name`, and lists `m` the way that the tool reads. -/
def Declares (py : Python) (text name : List Char) (m : List Byte) : Prop :=
  ∃ pre d rest, text = pre ++ d.before rest ∧ First py pre d rest ∧ d.Quiet ∧
    (∀ a ∈ d.items, a.1.Plain) ∧ d.name = name ∧ d.values = m

/-- The name of the array that a run writes for the array `name`. -/
def encryptedName (name : List Char) : List Char := "encrypted_".toList ++ name

section Run

variable {ν : Type} [DecidableEq ν] {t : Tool ν} {a : Args} {fs fs' : Files ν}
  {text name : List Char} {m package : List Byte}

/-- **What the tool makes of a declaration**: the listed values, under its name. -/
theorem parse_declares {py : Python} {parsed : ParsedHeader} (h : Declares py text name m)
    (hok : parseTinymaixHeader py text = .ok parsed) :
    parsed.modelData = m ∧ parsed.arrayName = name := by
  obtain ⟨pre, d, rest, rfl, first, quiet, plain, rfl, rfl⟩ := h
  have hseen : d.seen = d.values := (seen_of_quiet quiet).trans (flatMap_picked_eq.mpr plain)
  rw [parse_first first, hseen] at hok
  cases hm : defined py mdlBufLenText (pre ++ d.before rest) with
  | error err =>
      rw [hm] at hok
      cases hok
  | ok mdlBufLen =>
      cases hl : defined py lbufLenText (pre ++ d.before rest) with
      | error err =>
          rw [hm, hl] at hok
          cases hok
      | ok lbufLen =>
          rw [hm, hl] at hok
          have hok : (if d.values = [] then Except.error ValueError.noHex else
            .ok ⟨d.values, d.name, mdlBufLen, lbufLen⟩) = .ok parsed := hok
          by_cases hnil : d.values = []
          · rw [if_pos hnil] at hok
            cases hok
          · rw [if_neg hnil] at hok
            obtain rfl := Except.ok.inj hok
            exact ⟨rfl, rfl⟩

theorem Declares.identifier {py : Python} (h : Declares py text name m) :
    ∀ c ∈ encryptedName name, isIdentifierChar c = true := by
  obtain ⟨pre, d, rest, -, -, -, -, rfl, -⟩ := h
  intro c hc
  rcases List.mem_append.mp hc with hc | hc
  · exact List.all_eq_true.mp (by decide : "encrypted_".toList.all isIdentifierChar = true) c hc
  · exact d.identifier c hc

/-- The text has an array `name` without a declared length, which lists `p`. -/
def HasArray (text name : List Char) (p : List Byte) : Prop :=
  ∃ (pre : List Char) (d : Declaration) (rest : List Char),
    text = pre ++ d.before rest ∧ d.name = name ∧ d.length = [] ∧ d.values = p

/-- **The written source** has the package as its array. -/
theorem hasArray_sourceText {p : List Byte} {headerFilePath : Path} (hp : p ≠ [])
    (hname : ∀ c ∈ name, isIdentifierChar c = true) :
    HasArray (sourceText p headerFilePath name) (name ++ "_data".toList) p := by
  obtain ⟨l, hl, hrows⟩ := hexRows_lists hp
  exact ⟨_, _, _, sourceText_eq hname hl.items hrows headerFilePath, rfl, rfl, hl.values⟩

/-- What a run that ends has worked with. -/
structure Ran (t : Tool ν) (a : Args) (fs : Files ν) (package : List Byte) (fs' : Files ν)
    (parsed : ParsedHeader) (key : Cbc.Block 16 × Option (Cbc.Block 16)) : Prop where
  parsed_eq : ∃ text, (fs (t.node a.input)).bind t.decode = some text ∧
    parseTinymaixHeader t.py text = .ok parsed
  key_eq : t.chooseKey fs (some a.keyPath) a.password a.generateKey a.usePsaKey = some key
  package_eq : createEncryptedPackage t.aes parsed.modelData key.1 t.iv = some package
  /-- The key file is written before the header and the source. -/
  saved : ∀ p, a.savedKeyPath = some p → (a.generateCHeader = true →
    t.node p ≠ t.node a.headerPath ∧ t.node p ≠ t.node a.sourcePath) →
      fs' (t.node p) = some (keyFileData key.1 key.2)
  /-- The source is written last. -/
  source : a.generateCHeader = true → ∃ bytes, fs' (t.node a.sourcePath) = some bytes ∧
    t.encode (sourceText package a.headerPath (encryptedName parsed.arrayName)) = some bytes

theorem generateCHeader_frame {p : List Byte} {path : Path} {x : ν}
    (h : t.generateCHeader fs p path name = some fs')
    (hx : x ≠ t.node path ∧ x ≠ t.node (replaceAll hExt cExt path)) : fs' x = fs x := by
  simp only [Tool.generateCHeader, Option.bind_eq_bind, Option.bind_eq_some_iff] at h
  obtain ⟨header, -, fs₁, hh, source, -, hw⟩ := h
  rw [write_eq_some hw, write_eq_some hh]
  exact (Function.update_of_ne hx.2 _ _).trans (Function.update_of_ne hx.1 _ _)

theorem saveKeyFile_saved {key : Cbc.Block 16} {salt : Option (Cbc.Block 16)} {path : Path}
    (h : t.saveKeyFile fs key path salt = some fs') :
    fs' (t.node path) = some (keyFileData key salt) := by
  simp only [Tool.saveKeyFile, Option.bind_eq_bind, Option.bind_eq_some_iff] at h
  obtain ⟨fs₁, hw, hc⟩ := h
  split at hc
  · rw [← Option.some.inj hc, write_eq_some hw]
    exact Function.update_self _ _ _
  · cases hc

/-- A key that is given is not saved. -/
theorem savedKey_given (p : Option Path) : savedKey p false false = none := by
  rcases p with _ | _ | _ <;> rfl

omit [DecidableEq ν] in
/-- A key that is saved is saved with its salt: only a generated one has a salt. -/
theorem salt_of_saved {key : Cbc.Block 16 × Option (Cbc.Block 16)} {p : Path}
    (hkey : t.chooseKey fs (some a.keyPath) a.password a.generateKey a.usePsaKey = some key)
    (hp : a.savedKeyPath = some p) : (if a.generateKey = true then key.2 else none) = key.2 := by
  by_cases hg : a.generateKey = true
  · exact if_pos hg
  · have hpsa : a.usePsaKey = true := by
      by_contra hn
      rw [Bool.not_eq_true] at hg hn
      rw [Args.savedKeyPath, hg, hn, savedKey_given] at hp
      cases hp
    unfold Tool.chooseKey at hkey
    rw [if_pos hpsa] at hkey
    rw [if_neg hg, ← Option.some.inj hkey]

theorem generateCHeader_source {p : List Byte} {path : Path}
    (h : t.generateCHeader fs p path name = some fs') :
    ∃ bytes, fs' (t.node (replaceAll hExt cExt path)) = some bytes ∧
      t.encode (sourceText p path name) = some bytes := by
  simp only [Tool.generateCHeader, Option.bind_eq_bind, Option.bind_eq_some_iff] at h
  obtain ⟨-, -, fs₁, -, bytes, hbytes, hw⟩ := h
  refine ⟨bytes, ?_, hbytes⟩
  rw [write_eq_some hw]
  exact Function.update_self _ _ _

/-- **A run, from its end.** -/
theorem ran_of_main (run : t.main a fs = some (package, fs')) :
    ∃ parsed key, Ran t a fs package fs' parsed key := by
  rw [Tool.main] at run
  by_cases hin : fs (t.node a.input) = none
  · rw [if_pos hin] at run
    cases run
  rw [if_neg hin] at run
  simp only [Tool.encryptTinymaixModel, Option.bind_eq_bind, Option.bind_eq_some_iff] at run
  obtain ⟨header, hheader, text, htext, parsed, hparsed, key, hkey, pkg, hpkg, fs₁, -, fs₂, h₂, fs₃,
    h₃, hret⟩ := run
  obtain ⟨rfl, rfl⟩ := Prod.mk.inj (Option.some.inj hret)
  have hok : parseTinymaixHeader t.py text = .ok parsed := by
    cases hp : parseTinymaixHeader t.py text with
    | error err =>
        rw [hp] at hparsed
        cases hparsed
    | ok r =>
        rw [hp] at hparsed
        exact congrArg _ (Option.some.inj hparsed)
  refine ⟨parsed, key, ⟨text, ?_, hok⟩, hkey, hpkg, fun p hp hapart => ?_, fun hc => ?_⟩
  · rw [hheader]
    exact htext
  · have hsaved : fs₂ (t.node p) = some (keyFileData key.1 key.2) := by
      have hp' : savedKey (some a.keyPath) a.generateKey a.usePsaKey = some p := hp
      rw [hp'] at h₂
      rw [← salt_of_saved hkey hp]
      exact saveKeyFile_saved h₂
    by_cases hc : a.generateCHeader = true
    · rw [if_pos hc] at h₃
      exact (generateCHeader_frame h₃ (hapart hc)).trans hsaved
    · rw [if_neg hc] at h₃
      rw [← Option.some.inj h₃]
      exact hsaved
  · rw [if_pos hc] at h₃
    exact generateCHeader_source h₃

/-- **The tool's half**: the package is of the listed bytes, and it is what the source lists. -/
theorem main_declares (hfile : (fs (t.node a.input)).bind t.decode = some text)
    (hdecl : Declares t.py text name m) (run : t.main a fs = some (package, fs')) :
    ∃ key, t.chooseKey fs (some a.keyPath) a.password a.generateKey a.usePsaKey = some key ∧
      createEncryptedPackage t.aes m key.1 t.iv = some package ∧
      (a.generateCHeader = true → ∃ bytes source, fs' (t.node a.sourcePath) = some bytes ∧
        t.encode source = some bytes ∧
          HasArray source (encryptedName name ++ "_data".toList) package) := by
  obtain ⟨parsed, key, ⟨text', htext', hok⟩, hkey, hpkg, -, hsource⟩ := ran_of_main run
  obtain rfl : text' = text := Option.some.inj (htext'.symm.trans hfile)
  obtain ⟨rfl, rfl⟩ := parse_declares hdecl hok
  refine ⟨key, hkey, hpkg, fun hc => ?_⟩
  obtain ⟨bytes, hbytes, hencode⟩ := hsource hc
  have hne : package ≠ [] := by
    rw [createEncryptedPackage] at hpkg
    split at hpkg
    · cases hpkg
    · rw [← Option.some.inj hpkg, packageBytes]
      exact List.append_ne_nil_of_left_ne_nil (List.append_ne_nil_of_left_ne_nil
        (List.append_ne_nil_of_left_ne_nil (List.append_ne_nil_of_left_ne_nil
          (List.cons_ne_nil _ _) _) _) _) _
  exact ⟨bytes, _, hbytes, hencode, hasArray_sourceText hne hdecl.identifier⟩

/-! ### The key file -/

theorem blockAt_ofFn (b : Cbc.Block 16) (rest : List Byte) : blockAt (List.ofFn b ++ rest) = b := by
  funext i
  have hi : (i : Nat) < (List.ofFn b).length := i.isLt.trans_eq (List.length_ofFn).symm
  rw [blockAt, List.getD_append _ _ _ _ hi, List.getD_eq_getElem _ _ hi, List.getElem_ofFn]

omit [DecidableEq ν] in
/-- **What is saved is read back**, with its salt if it has one. -/
theorem loadKeyFile_saved {key : Cbc.Block 16} {salt : Option (Cbc.Block 16)} {path : Path}
    (h : fs (t.node path) = some (keyFileData key salt)) :
    t.loadKeyFile fs path = some (key, salt) := by
  rw [Tool.loadKeyFile, h, Option.bind_eq_bind, Option.bind_some]
  cases salt with
  | none =>
      have hlen : (keyFileData key none).length = aesKeySize := List.length_ofFn
      have hkey : blockAt (keyFileData key none) = key := by
        have hk := blockAt_ofFn key []
        rwa [List.append_nil] at hk
      rw [if_pos hlen, hkey]
  | some salt =>
      have hlen : (keyFileData key (some salt)).length = saltSize + aesKeySize := by
        rw [keyFileData, List.length_append, Option.elim_some, List.length_ofFn, List.length_ofFn]
        rfl
      have hkey : (keyFileData key (some salt)).drop saltSize = List.ofFn key :=
        List.drop_left' List.length_ofFn
      have hsalt : blockAt (keyFileData key (some salt)) = salt := blockAt_ofFn salt (List.ofFn key)
      have hk := blockAt_ofFn key []
      rw [List.append_nil] at hk
      rw [if_neg (by rw [hlen]; decide), if_pos hlen, hkey, hk, hsalt]

end Run

/-! ### Runs that end -/

/-- **A run ends**, where every file can be written and every text encoded. -/
theorem main_ends {ν : Type} [DecidableEq ν] {t : Tool ν} {a : Args} {fs : Files ν}
    {text : List Char} {parsed : ParsedHeader} {key : Cbc.Block 16 × Option (Cbc.Block 16)}
    (hw : ∀ p, t.writable p = true) (hchmod : ∀ p, t.chmod p = true)
    (hencode : ∀ cs, ∃ bs, t.encode cs = some bs)
    (hfile : (fs (t.node a.input)).bind t.decode = some text)
    (hparse : parseTinymaixHeader t.py text = .ok parsed)
    (hkey : t.chooseKey fs (some a.keyPath) a.password a.generateKey a.usePsaKey = some key)
    (hlen : parsed.modelData.length < 2 ^ 32) :
    ∃ package fs', t.main a fs = some (package, fs') := by
  have write : ∀ (gs : Files ν) p data, t.write gs p data = some (t.put gs p data) :=
    fun gs p data => if_pos (hw p)
  have saves : ∀ (gs : Files ν) path salt, ∃ gs', t.saveKeyFile gs key.1 path salt = some gs' := by
    intro gs path salt
    refine ⟨t.put gs path (keyFileData key.1 salt), ?_⟩
    rw [Tool.saveKeyFile, write, Option.bind_eq_bind, Option.bind_some, if_pos (hchmod path)]
  have generates : ∀ (gs : Files ν) data path name, ∃ gs',
      t.generateCHeader gs data path name = some gs' := by
    intro gs data path name
    obtain ⟨header, hheader⟩ := hencode (headerText t.upper name)
    obtain ⟨bytes, hbytes⟩ := hencode (sourceText data path name)
    refine ⟨t.put (t.put gs path header) (replaceAll hExt cExt path) bytes, ?_⟩
    rw [Tool.generateCHeader, hheader, hbytes]
    simp only [Option.bind_eq_bind, Option.bind_some, write]
  obtain ⟨header, hheader, htext⟩ := Option.bind_eq_some_iff.mp hfile
  have hpkg : createEncryptedPackage t.aes parsed.modelData key.1 t.iv =
      some (packageBytes t.aes parsed.modelData key.1 t.iv) := if_neg (not_le.mpr hlen)
  have ends : (t.main a fs).isSome = true := by
    have hin : fs (t.node a.input) ≠ none := by
      rw [hheader]
      exact Option.some_ne_none header
    rw [Tool.main, if_neg hin, Tool.encryptTinymaixModel]
    simp only [hheader, htext, hparse, hkey, hpkg, write, Option.bind_eq_bind, Option.bind_some,
      Except.toOption]
    cases savedKey (some a.keyPath) a.generateKey a.usePsaKey with
    | none =>
        obtain ⟨gs, hgs⟩ := generates (t.put fs a.output
          (packageBytes t.aes parsed.modelData key.1 t.iv)) (packageBytes t.aes parsed.modelData
            key.1 t.iv) (replaceAll binExt hExt a.output) ("encrypted_".toList ++ parsed.arrayName)
        rw [Option.bind_some, hgs]
        split <;> rfl
    | some p =>
        obtain ⟨gs₁, hgs₁⟩ := saves (t.put fs a.output
          (packageBytes t.aes parsed.modelData key.1 t.iv)) p
            (if a.generateKey = true then key.2 else none)
        obtain ⟨gs, hgs⟩ := generates gs₁ (packageBytes t.aes parsed.modelData key.1 t.iv)
          (replaceAll binExt hExt a.output) ("encrypted_".toList ++ parsed.arrayName)
        dsimp only
        rw [hgs₁, Option.bind_some, hgs]
        split <;> rfl
  obtain ⟨⟨package, fs'⟩, run⟩ := Option.isSome_iff_exists.mp ends
  exact ⟨package, fs', run⟩

/-! ### A header of one array -/

/-- The tool with UTF-8 texts, on a system where every path is a file. -/
def utf8Tool : Tool Path :=
  { plainTool with
    decode := fun bs => (ByteArray.mk (bs.map UInt8.ofBitVec).toArray).utf8Decode?.map Array.toList
    encode := fun cs => some ((cs.flatMap String.utf8EncodeChar).map UInt8.toBitVec) }

theorem coding_utf8Tool (cs : List Char) (bs : List Byte) (h : utf8Tool.encode cs = some bs) :
    utf8Tool.decode bs = some cs := by
  obtain rfl : (cs.flatMap String.utf8EncodeChar).map UInt8.toBitVec = bs := Option.some.inj h
  have hbytes : ((cs.flatMap String.utf8EncodeChar).map UInt8.toBitVec).map UInt8.ofBitVec =
      cs.flatMap String.utf8EncodeChar := by
    rw [List.map_map]
    exact List.map_id _
  have harray : ByteArray.mk (cs.flatMap String.utf8EncodeChar).toArray = cs.utf8Encode :=
    ByteArray.ext List.data_toByteArray.symm
  show ((ByteArray.mk _).utf8Decode?).map Array.toList = some cs
  rw [hbytes, harray, List.utf8Decode?_utf8Encode]
  rfl

/-- **Every model has a header** that the tool reads. -/
theorem exists_header (py : Python) {m : List Byte} (hm : m ≠ []) :
    ∃ text parsed, Declares py text "m_data".toList m ∧
      parseTinymaixHeader py text = .ok parsed := by
  obtain ⟨l, hl, -⟩ := hexRows_lists hm
  have hname : ∀ c ∈ ['m'], isIdentifierChar c = true := List.forall_mem_singleton.mpr (by decide)
  have quiet : (sourceArray ['m'] hname l hl.items).Quiet :=
    ⟨⟨(by decide : '}' ∉ "\n    ".toList), hexBytes_of_no_x (by decide : 'x' ∉ "\n    ".toList)⟩,
      hl.quiet⟩
  have hash := @hash_sourceArray m ['m'] hname l hl
  have undefined : ∀ n, defined py n
      ((sourceArray ['m'] hname l hl.items).before (sourceRest ['m'])) = .ok 0 := by
    intro n
    have none : search (definePattern py n)
        ((sourceArray ['m'] hname l hl.items).before (sourceRest ['m'])) = none :=
      search_lit_eq_none (a := '#') (by decide) hash
    rw [defined, none]
  have parsed := @parse_first py [] (sourceRest ['m']) (sourceArray ['m'] hname l hl.items) first_nil
  rw [List.nil_append, undefined, undefined, seen_sourceArray hl] at parsed
  have parsed : _ = (if m = [] then Except.error ValueError.noHex else _) := parsed
  rw [if_neg hm] at parsed
  exact ⟨_, _, ⟨[], _, sourceRest ['m'], rfl, first_nil, quiet, hl.plain, rfl, hl.values⟩, parsed⟩

end Encryptor

namespace Partition
open Bytes Encryptor Footprint TinyMaix

/-! ### A device with the package -/

/-- The bytes have the header of a model, and fit into the device once they are packed. -/
structure Loadable (m : List Byte) : Prop where
  fits : 28 + (pkcs7Pad m 16).length ≤ tfmTinymaixMaxModelSize
  magic : m.take 4 = [0x4D, 0x41, 0x49, 0x58]
  mdlType : leValue ((m.drop 4).take 1) = tmMdlType
  subSize : leValue ((m.drop 16).take 4) = 0

/-- The device is built with `m`, packed under its own key. -/
def Built (dev : Device) (m : List Byte) : Prop :=
  ∃ iv, dev.package = packageBytes dev.aes m (deviceKey dev) iv

section Device

variable {dev : Device} {m : List Byte} {f : Outcome} {msg : Msg} {s : Service}
  {h : List (Input × Service)}

/-- A field of the header, in the bytes that are in memory. -/
theorem word_window {e : Env} {w off : Nat} (hm : window e.model 0 m.length = m)
    (hw : off + w ≤ m.length) :
    e.word w (gDecryptedModelPtr.add off) = leValue ((m.drop off).take w) := by
  have hsub : ((window e.model 0 m.length).drop off).take w = window e.model (0 + off) w :=
    window_slice hw
  rw [hm] at hsub
  rw [hsub]
  rfl

theorem loads_window {e : Env} (hm : window e.model 0 m.length = m) (hlen : 20 ≤ m.length) :
    e.Loads gDecryptedModelPtr ↔ leValue (m.take 4) = tmMdlMagic ∧
      leValue ((m.drop 4).take 1) = tmMdlType ∧ leValue ((m.drop 16).take 4) = 0 := by
  have h₀ : e.word 4 (gDecryptedModelPtr.add (0 : Nat)) = leValue ((m.drop 0).take 4) :=
    word_window hm (by omega)
  have h₄ : e.word 1 (gDecryptedModelPtr.add (4 : Nat)) = leValue ((m.drop 4).take 1) :=
    word_window hm (by omega)
  have h₁₆ : e.word 4 (gDecryptedModelPtr.add (16 : Nat)) = leValue ((m.drop 16).take 4) :=
    word_window hm (by omega)
  constructor
  · rintro ⟨h₁, h₂, h₃⟩
    exact ⟨h₀.symm.trans h₁, h₄.symm.trans h₂, h₁₆.symm.trans h₃⟩
  · rintro ⟨h₁, h₂, h₃⟩
    exact ⟨h₀.trans h₁, h₄.trans h₂, h₁₆.trans h₃⟩

/-- The decryption of the package of a device. -/
theorem loadPackage_built (hb : Built dev m) (hf : f.CryptoOk) (hlen : 4 ≤ m.length) :
    (loadPackage dev f s).1 = psaSuccess ↔
      28 + (pkcs7Pad m 16).length ≤ tfmTinymaixMaxModelSize ∧
        m.take 4 = [0x4D, 0x41, 0x49, 0x58] := by
  obtain ⟨iv, hp⟩ := hb
  rw [loadPackage_success, hp, length_packageBytes, decryptModel_success_iff]
  constructor
  · rintro ⟨hfit, -, d, ho⟩
    obtain ⟨rfl, -⟩ := package_injective ho.eq_package
    refine ⟨hfit, leValue_inj (List.length_take_of_le hlen) ?_⟩
    exact ho.model hlen
  · rintro ⟨hfit, hm⟩
    exact ⟨hfit, hf.decryptOk, m, opens_package hm (by rw [← pkcs7Pad_eq]; omega)⟩

/-- What is in memory once the package of a device is decrypted. -/
theorem window_built (hb : Built dev m) (hp : (loadPackage dev f s).1 = psaSuccess) :
    window (loadPackage dev f s).2.gDecryptedModel 0 m.length = m ∧
      (loadPackage dev f s).2.gDecryptedSize = m.length := by
  obtain ⟨iv, hpkg⟩ := hb
  have hd := (loadPackage_success.mp hp).2
  obtain ⟨hf, d, ho⟩ := decryptModel_success_iff.mp hd
  have hpkg' := ho.eq_package
  rw [hpkg] at hpkg'
  obtain ⟨rfl, -⟩ := package_injective hpkg'
  obtain ⟨-, hsize, hw⟩ := decryptModel_opens (s := s) hf ho
  rw [loadPackage_state hp]
  exact ⟨hw, hsize⟩

/-- **A `LOAD`** on a device that is built with `m`. -/
theorem load_built (hb : Built dev m) (hlen : 20 ≤ m.length) (hget : f.get = psaSuccess)
    (hf : f.CryptoOk) (ht : msg.type = tinymaixIpcLoadEncryptedModel) :
    replyStatus (serve dev f msg s).trace = some psaSuccess ↔ Loadable m := by
  rw [@serve_load dev s (f, msg) ⟨hget, ht⟩, handleLoad_reply rfl, Option.some.injEq, loadModel_success]
  have hpkg := loadPackage_built (s := s.fresh) hb hf (by omega)
  constructor
  · rintro ⟨hp, hl⟩
    obtain ⟨hfit, hm⟩ := hpkg.mp hp
    obtain ⟨-, htype, hsub⟩ := (loads_window (window_built hb hp).1 hlen).mp hl
    exact ⟨hfit, hm, htype, hsub⟩
  · rintro ⟨hfit, hm, htype, hsub⟩
    have hp := hpkg.mpr ⟨hfit, hm⟩
    refine ⟨hp, (loads_window (window_built hb hp).1 hlen).mpr ⟨?_, htype, hsub⟩⟩
    rw [hm]
    rfl

/-- **The model in memory**, as long as one is loaded. -/
theorem window_loaded (hb : Built dev m) (r : Serves dev h s) (hl : s.gModelLoaded = true) :
    s.gDecryptedSize = m.length ∧ window s.gDecryptedModel 0 m.length = m := by
  obtain ⟨iv, hp⟩ := hb
  have plain := (r.inStep.2 hl).plain
  have hpad : Cbc.decryptBytes (dev.aes (deviceKey dev)) (headerIv dev.package)
      (ciphertext dev.package) = Pkcs7.pad 16 m := by
    rw [hp]
    exact plaintext_packageBytes
  rw [hpad, Pkcs7.unpad_pad (by decide) (by decide)] at plain
  have hm : m = window s.gDecryptedModel 0 s.gDecryptedSize := Option.some.inj plain
  have hsize : s.gDecryptedSize = m.length := by
    have hlen := congrArg List.length hm
    rw [length_window] at hlen
    exact hlen.symm
  refine ⟨hsize, ?_⟩
  rw [← hsize]
  exact hm.symm

theorem built_of_package {aes : Cipher} {key iv : Cbc.Block 16} {package : List Byte}
    (hpkg : createEncryptedPackage aes m key iv = some package) (haes : dev.aes = aes)
    (hkey : deviceKey dev = key) (hp : dev.package = package) : Built dev m := by
  rw [createEncryptedPackage] at hpkg
  split at hpkg
  · cases hpkg
  · refine ⟨iv, ?_⟩
    rw [hp, haes, hkey, ← Option.some.inj hpkg]

end Device

/-! ### From the header file to the device -/

/-- **The device takes `m` for its model.**  A `LOAD` whose calls succeed succeeds exactly when `m`
has the header of a model and fits; and in every history, while a model is loaded, it is `m`. -/
structure Deployed (dev : Device) (m : List Byte) : Prop where
  load : ∀ f msg s, f.get = psaSuccess → f.CryptoOk → msg.type = tinymaixIpcLoadEncryptedModel →
    (replyStatus (serve dev f msg s).trace = some psaSuccess ↔ Loadable m)
  memory : ∀ h s, Serves dev h s → s.gModelLoaded = true →
    s.gDecryptedSize = m.length ∧ window s.gDecryptedModel 0 m.length = m

theorem Built.deployed {dev : Device} {m : List Byte} (hb : Built dev m) (hlen : 20 ≤ m.length) :
    Deployed dev m :=
  ⟨fun _ _ _ hget hf ht => load_built hb hlen hget hf ht, fun _ _ r hl => window_loaded hb r hl⟩

section Deployment

variable {ν : Type} [DecidableEq ν] {t : Tool ν} {a : Args} {fs fs' : Files ν}
  {text name : List Char} {m package : List Byte}

/-- **The shipped model, from its header to its classes.**  If the header lists it, then in every
history whose last `LOAD` succeeded an image gets the class that the model gives it. -/
theorem deployed_class (hfile : (fs (t.node a.input)).bind t.decode = some text)
    (hdecl : Declares t.py text name mdlData) (run : t.main a fs = some (package, fs')) :
    ∃ key, t.chooseKey fs (some a.keyPath) a.password a.generateKey a.usePsaKey = some key ∧
      ∀ dev : Device, dev.aes = t.aes → deviceKey dev = key.1 → dev.package = package →
        ∀ h s, Serves dev h s → lastLoad h = some psaSuccess →
          ∀ f msg, Delivered f msg → msg.inSize = 28 * 28 →
            replyStatus (serve dev f msg s).trace = some psaSuccess ∧
              written (serve dev f msg s).trace = if 4 ≤ msg.outSize then leBytes 4
                (BitVec.ofInt 32 (mnistClass dev.fl fun i => msg.inVec.getD i 0)).toNat else [] := by
  obtain ⟨key, hkey, hpkg, -⟩ := main_declares hfile hdecl run
  refine ⟨key, hkey, fun dev haes hk hp h s r hload f msg hd hn => ?_⟩
  have hl : s.gModelLoaded = true := r.inStep.1.mpr hload
  have hw := (window_loaded (built_of_package hpkg haes hk hp) r hl).2
  exact shipped_reply r ⟨hl, hw⟩ hd hn

/-- **One key for two models.**  A run saves its key, and neither its header nor its source goes over
the key file; a later run, perhaps on another system, is given that file.  A device that has the key
takes either model, whichever package it is built with. -/
theorem saved_key_reused {t' : Tool ν} {a' : Args} {gs gs' : Files ν} {text' name' : List Char}
    {m' package' : List Byte} {p p' : Path}
    (hfile : (fs (t.node a.input)).bind t.decode = some text) (hdecl : Declares t.py text name m)
    (hlen : 20 ≤ m.length) (run : t.main a fs = some (package, fs'))
    (hsaved : a.savedKeyPath = some p) (hapart : a.generateCHeader = true →
      t.node p ≠ t.node a.headerPath ∧ t.node p ≠ t.node a.sourcePath)
    (hfile' : (gs (t'.node a'.input)).bind t'.decode = some text')
    (hdecl' : Declares t'.py text' name' m') (hlen' : 20 ≤ m'.length)
    (run' : t'.main a' gs = some (package', gs')) (hgiven : a'.keyOption = .keyFile p')
    (hne : p' ≠ []) (hcopy : gs (t'.node p') = fs' (t.node p)) :
    ∃ key, t.chooseKey fs (some a.keyPath) a.password a.generateKey a.usePsaKey = some key ∧
      t'.chooseKey gs (some a'.keyPath) a'.password a'.generateKey a'.usePsaKey = some key ∧
      ∀ dev : Device, deviceKey dev = key.1 →
        (dev.aes = t.aes → dev.package = package → Deployed dev m) ∧
          (dev.aes = t'.aes → dev.package = package' → Deployed dev m') := by
  obtain ⟨key, hkey, hpkg, -⟩ := main_declares hfile hdecl run
  obtain ⟨key', hkey', hpkg', -⟩ := main_declares hfile' hdecl' run'
  have hkeyFile : gs (t'.node p') = some (keyFileData key.1 key.2) := by
    obtain ⟨parsed, key₁, ran⟩ := ran_of_main run
    obtain rfl : key₁ = key := Option.some.inj (ran.key_eq.symm.trans hkey)
    rw [hcopy]
    exact ran.saved p hsaved hapart
  have hsame : key' = key := by
    have hload := loadKeyFile_saved hkeyFile
    have hpath : a'.keyPath = p' := by rw [Args.keyPath, hgiven]
    have hgen : a'.generateKey = false ∧ a'.usePsaKey = false := by
      rw [Args.generateKey, Args.usePsaKey, hgiven]
      exact ⟨rfl, rfl⟩
    obtain ⟨c, cs, rfl⟩ := List.exists_cons_of_ne_nil hne
    rw [hpath, hgen.1, hgen.2] at hkey'
    have hchosen : t'.loadKeyFile gs (c :: cs) = some key' := hkey'
    exact Option.some.inj (hchosen.symm.trans hload)
  rw [hsame] at hkey' hpkg'
  exact ⟨key, hkey, hkey', fun dev hk => ⟨fun haes hp =>
    (built_of_package hpkg haes hk hp).deployed hlen, fun haes hp =>
      (built_of_package hpkg' haes hk hp).deployed hlen'⟩⟩

end Deployment

/-! ### Two models, deployed -/

/-- `--input m.h --output n.bin --generate-key --generate-c-header`. -/
def generateArgs : Args where
  input := ['m', '.', 'h']
  output := ['n', '.', 'b', 'i', 'n']
  keyOption := .generateKey
  password := none
  generateCHeader := true
  outputKey := none

/-- A file system with one file `m.h`, with this text. -/
def headerFiles (text : List Char) : Files Path := fun p =>
  if p = ['m', '.', 'h'] then utf8Tool.encode text else none

theorem headerFiles_text (text : List Char) :
    (headerFiles text (utf8Tool.node generateArgs.input)).bind utf8Tool.decode = some text := by
  show (utf8Tool.encode text).bind utf8Tool.decode = some text
  obtain ⟨bs, hbs⟩ : ∃ bs, utf8Tool.encode text = some bs := ⟨_, rfl⟩
  rw [hbs]
  exact coding_utf8Tool text bs hbs

/-- A run on such a file. -/
theorem headerFiles_run {text : List Char} {parsed : ParsedHeader}
    (hparse : parseTinymaixHeader utf8Tool.py text = .ok parsed)
    (hlen : parsed.modelData.length < 2 ^ 32) :
    ∃ package fs', utf8Tool.main generateArgs (headerFiles text) = some (package, fs') :=
  main_ends (fun _ => rfl) (fun _ => rfl) (fun _ => ⟨_, rfl⟩) (headerFiles_text text) hparse
    (show _ = some (utf8Tool.randomKey, none) from rfl) hlen

/-- The shipped model, deployed on a device. -/
theorem deployed_class_bare : ∃ fs package fs',
    utf8Tool.main generateArgs fs = some (package, fs') ∧
      ∀ h s, Serves (bareDevice package) h s → lastLoad h = some psaSuccess →
        written (serve (bareDevice package) dotRequest.1 dotRequest.2 s).trace = leBytes 4
          (BitVec.ofInt 32 (mnistClass ieee754 fun i => dotRequest.2.inVec.getD i 0)).toNat := by
  have hne : mdlData ≠ [] := List.ne_nil_of_length_pos (by rw [length_mdlData]; decide)
  obtain ⟨text, parsed, hdecl, hparse⟩ := exists_header utf8Tool.py hne
  have hlen : parsed.modelData.length < 2 ^ 32 := by
    rw [(parse_declares hdecl hparse).1, length_mdlData]
    decide
  obtain ⟨package, fs', run⟩ := headerFiles_run hparse hlen
  obtain ⟨key, hkey, device⟩ := deployed_class (headerFiles_text text) hdecl run
  obtain rfl : (utf8Tool.randomKey, none) = key := Option.some.inj hkey
  refine ⟨_, package, fs', run, fun h s r hload => ?_⟩
  have class_ := (device (bareDevice package) rfl rfl rfl h s r hload _ _ delivered_dotRequest
    inSize_dotRequest).2
  exact class_.trans (if_pos (by decide))

/-- A later run: `--input m.h --output o.bin --key n.key`. -/
def givenArgs : Args where
  input := ['m', '.', 'h']
  output := ['o', '.', 'b', 'i', 'n']
  keyOption := .keyFile ['n', '.', 'k', 'e', 'y']
  password := none
  generateCHeader := false
  outputKey := none

/-- The file system of the later run: another header, and the key file. -/
def laterFiles (text : List Char) (fs : Files Path) : Files Path := fun p =>
  if p = ['m', '.', 'h'] then utf8Tool.encode text else fs p

theorem laterFiles_text (text : List Char) (fs : Files Path) :
    (laterFiles text fs (utf8Tool.node givenArgs.input)).bind utf8Tool.decode = some text :=
  headerFiles_text text

/-- Two models under a key that was generated for the first. -/
theorem saved_key_reused_reshape : ∃ fs gs package package' fs' gs',
    utf8Tool.main generateArgs fs = some (package, fs') ∧
      utf8Tool.main givenArgs gs = some (package', gs') ∧
      Deployed (bareDevice package) reshapeModel ∧
      Deployed (bareDevice package') (reshapeModelAt 8) := by
  obtain ⟨text, parsed, hdecl, hparse⟩ :=
    exists_header utf8Tool.py (show reshapeModel ≠ [] by decide)
  obtain ⟨text', parsed', hdecl', hparse'⟩ :=
    exists_header utf8Tool.py (show reshapeModelAt 8 ≠ [] by decide)
  have hlen : parsed.modelData.length < 2 ^ 32 := by
    rw [(parse_declares hdecl hparse).1]
    decide
  have hlen' : parsed'.modelData.length < 2 ^ 32 := by
    rw [(parse_declares hdecl' hparse').1]
    decide
  obtain ⟨package, fs', run⟩ := headerFiles_run hparse hlen
  have hapart : ['n', '.', 'k', 'e', 'y'] ≠ generateArgs.headerPath ∧
      ['n', '.', 'k', 'e', 'y'] ≠ generateArgs.sourcePath := by decide
  have hsaved : generateArgs.savedKeyPath = some ['n', '.', 'k', 'e', 'y'] := by decide
  have hkeyFile : fs' ['n', '.', 'k', 'e', 'y'] = some (keyFileData 0 none) := by
    obtain ⟨parsed₁, key, ran⟩ := ran_of_main run
    obtain rfl : (utf8Tool.randomKey, none) = key := Option.some.inj ran.key_eq
    exact ran.saved _ hsaved fun _ => hapart
  have hkey : utf8Tool.chooseKey (laterFiles text' fs') (some givenArgs.keyPath)
      givenArgs.password givenArgs.generateKey givenArgs.usePsaKey = some (0, none) :=
    loadKeyFile_saved hkeyFile
  obtain ⟨package', gs', run'⟩ := main_ends (fun _ => rfl) (fun _ => rfl) (fun _ => ⟨_, rfl⟩)
    (laterFiles_text text' fs') hparse' hkey hlen'
  obtain ⟨key, hkey₁, -, device⟩ := saved_key_reused (headerFiles_text text) hdecl (by decide) run
    hsaved (fun _ => hapart) (laterFiles_text text' fs') hdecl' (by decide) run' rfl
      (List.cons_ne_nil _ _) rfl
  obtain rfl : (utf8Tool.randomKey, none) = key := Option.some.inj hkey₁
  exact ⟨_, _, package, package', fs', gs', run, run', (device (bareDevice package) rfl).1 rfl rfl,
    (device (bareDevice package') rfl).2 rfl rfl⟩

end Partition
