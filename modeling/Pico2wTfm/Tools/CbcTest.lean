import Pico2wTfm.Tools.Encryptor

/-!
# Tools — CbcTest

`test_cbc_decrypt.py`, which decrypts a package on the host and says what it thinks of it.  A
`Report` holds the lines that pass a judgement, and the plaintext; the lines that only show a value
are left out.  An exception of the decryption is caught and becomes a line, one of the header is not.

* `accepts_iff`: the packages that it calls valid without another word.
-/

namespace CbcTest
open Bytes Encryptor

/-- `struct.error`, `ValueError` and `IndexError`. -/
inductive PyError where
  | struct
  | value
  | index
deriving DecidableEq, Repr

/-- A line that passes a judgement. -/
inductive Line where
  | invalidPaddingLength (paddingLength : Nat)
  | invalidPadding (position : Int)
  | sizeMismatch (got expected : Nat)
  | validModel
  | invalidMagic (got : Nat)
  | failed (e : PyError)
deriving DecidableEq, Repr

structure Report where
  lines : List Line
  decryptedData : Option (List Byte)
deriving DecidableEq, Repr

/-! ### The script -/

/-- `package[start:stop]`. -/
def slice (package : List Byte) (start stop : Nat) : List Byte :=
  (package.drop start).take (stop - start)

/-- `struct.unpack('<I', s)[0]`. -/
def unpackI (s : List Byte) : Except PyError Nat :=
  if s.length = 4 then .ok (leValue s) else .error .struct

/-- `update` and `finalize` of an AES-CBC decryptor, which wants a whole IV and whole blocks. -/
def cbcDecrypt (aes : Cipher) (key : Cbc.Block 16) (iv ciphertext : List Byte) :
    Except PyError (List Byte) :=
  if iv.length ≠ 16 then .error .value
  else if ciphertext.length % 16 ≠ 0 then .error .value
  else .ok (Cbc.decryptBytes (aes key) (fun i => iv.getD i 0) ciphertext)

/-- `padded_data[-(i + 1)]`. -/
def fromEnd (paddedData : List Byte) (i : Nat) : Except PyError Byte :=
  match paddedData.reverse[i]? with
  | some b => .ok b
  | none => .error .index

/-- The loop over the padding: the line of the first byte that is not right. -/
def verifyPadding (paddedData : List Byte) (paddingLength : Nat) :
    List Nat → Except PyError (Option Line)
  | [] => .ok none
  | i :: is => do
      let b ← fromEnd paddedData i
      if b.toNat ≠ paddingLength then return some (.invalidPadding (-(i + 1)))
      verifyPadding paddedData paddingLength is

/-- The plaintext against the size in the header, and against the magic of a model. -/
def judge (originalSize : Nat) (decryptedData : List Byte) : List Line :=
  (if decryptedData.length ≠ originalSize then
    [.sizeMismatch decryptedData.length originalSize] else []) ++
  (if 4 ≤ decryptedData.length then
    (let modelMagic := leValue (decryptedData.take 4)
     if modelMagic = 0x5849414D then [.validModel] else [.invalidMagic modelMagic])
  else [])

/-- The padding is checked and removed, and the plaintext is judged. -/
def unpadAndJudge (originalSize : Nat) (paddedData : List Byte) : Except PyError Report := do
  let paddingLength := (← fromEnd paddedData 0).toNat
  if 16 < paddingLength ∨ paddingLength = 0 then
    return ⟨[.invalidPaddingLength paddingLength], none⟩
  match ← verifyPadding paddedData paddingLength (List.range paddingLength) with
  | some line => return ⟨[line], none⟩
  | none =>
      let decryptedData := paddedData.take (paddedData.length - paddingLength)
      return ⟨judge originalSize decryptedData, some decryptedData⟩

/-- The body of the `try`. -/
def decryptAndJudge (aes : Cipher) (key : Cbc.Block 16) (iv ciphertext : List Byte)
    (originalSize : Nat) : Except PyError Report := do
  let paddedData ← cbcDecrypt aes key iv ciphertext
  unpadAndJudge originalSize paddedData

/-- `test_cbc_decrypt.py`.  The magic and the version are read and shown. -/
def testCbcDecrypt (aes : Cipher) (package : List Byte) (key : Cbc.Block 16) :
    Except PyError Report := do
  let _magic ← unpackI (slice package 0 4)
  let _version ← unpackI (slice package 4 8)
  let originalSize ← unpackI (slice package 8 12)
  let iv := slice package 12 28
  let ciphertext := package.drop 28
  match decryptAndJudge aes key iv ciphertext originalSize with
  | .ok report => return report
  | .error e => return ⟨[.failed e], none⟩

/-! ### What it accepts -/

section Accepts

variable {aes : Cipher} {key : Cbc.Block 16} {P p d iv ct : List Byte} {n : Nat}

theorem fromEnd_ok {i : Nat} {b : Byte} :
    fromEnd p i = .ok b ↔ i < p.length ∧ p.getD (p.length - 1 - i) 0 = b := by
  rw [fromEnd]
  by_cases hi : i < p.length
  · have hrev : i < p.reverse.length := by rwa [List.length_reverse]
    have hget : p.length - 1 - i < p.length := by omega
    rw [List.getElem?_eq_getElem hrev, List.getElem_reverse, List.getD_eq_getElem _ _ hget]
    exact ⟨fun h => ⟨hi, Except.ok.inj h⟩, fun h => congrArg _ h.2⟩
  · have hrev : p.reverse.length ≤ i := by
      rw [List.length_reverse]
      exact Nat.not_lt.mp hi
    rw [List.getElem?_eq_none hrev]
    exact ⟨fun h => (by cases h), fun h => absurd h.1 hi⟩

theorem verifyPadding_none {is : List Nat} : verifyPadding p n is = .ok none ↔
    ∀ i ∈ is, i < p.length ∧ (p.getD (p.length - 1 - i) 0).toNat = n := by
  induction is with
  | nil => exact ⟨fun _ i hi => absurd hi List.not_mem_nil, fun _ => rfl⟩
  | cons i is ih =>
      rw [List.forall_mem_cons, ← ih]
      cases hb : fromEnd p i with
      | error e =>
          have hno : ¬i < p.length := fun hi => by
            rw [fromEnd_ok.mpr ⟨hi, rfl⟩] at hb
            cases hb
          constructor
          · intro h
            rw [verifyPadding, hb] at h
            cases h
          · exact fun h => absurd h.1.1 hno
      | ok b =>
          obtain ⟨hi, hget⟩ := fromEnd_ok.mp hb
          have step : verifyPadding p n (i :: is) =
              if b.toNat ≠ n then .ok (some (.invalidPadding (-(i + 1))))
              else verifyPadding p n is := by
            rw [verifyPadding, hb]
            rfl
          rw [step, hget]
          by_cases hn : b.toNat = n
          · rw [if_neg (not_not.mpr hn)]
            exact ⟨fun h => ⟨⟨hi, hn⟩, h⟩, fun h => h.2⟩
          · rw [if_pos hn]
            exact ⟨fun h => (by cases h), fun h => absurd h.1.2 hn⟩

theorem judge_valid {o : Nat} : judge o d = [.validModel] ↔
    d.length = o ∧ 4 ≤ d.length ∧ leValue (d.take 4) = 0x5849414D := by
  rw [judge]
  by_cases hsize : d.length = o
  · rw [if_neg (not_not.mpr hsize), List.nil_append]
    by_cases hlen : 4 ≤ d.length
    · rw [if_pos hlen]
      by_cases hmagic : leValue (d.take 4) = 0x5849414D
      · exact ⟨fun _ => ⟨hsize, hlen, hmagic⟩, fun _ => if_pos hmagic⟩
      · refine ⟨fun h => ?_, fun h => absurd h.2.2 hmagic⟩
        have h : [Line.invalidMagic (leValue (d.take 4))] = [.validModel] :=
          (if_neg hmagic).symm.trans h
        cases h
    · rw [if_neg hlen]
      exact ⟨fun h => (by cases h), fun h => absurd h.2.1 hlen⟩
  · rw [if_pos hsize]
    refine ⟨fun h => ?_, fun h => absurd h.1 hsize⟩
    injection h with h
    cases h

/-- The checks of the script are those of a well-formed padding. -/
theorem padded_iff : Pkcs7.Padded 16 p ↔
    ¬(16 < Pkcs7.lastByte p ∨ Pkcs7.lastByte p = 0) ∧
      verifyPadding p (Pkcs7.lastByte p) (List.range (Pkcs7.lastByte p)) = .ok none := by
  rw [verifyPadding_none, Pkcs7.Padded]
  constructor
  · rintro ⟨h₁, h₂, h₃, h₄⟩
    refine ⟨by omega, fun i hi => ?_⟩
    have hi := List.mem_range.mp hi
    exact ⟨by omega, h₄ i hi⟩
  · rintro ⟨hrange, hall⟩
    have hlast := hall (Pkcs7.lastByte p - 1) (List.mem_range.mpr (by omega))
    exact ⟨by omega, by omega, by omega, fun i hi => (hall i (List.mem_range.mpr hi)).2⟩

theorem unpadAndJudge_valid {o : Nat} : unpadAndJudge o p = .ok ⟨[.validModel], some d⟩ ↔
    Pkcs7.unpad 16 p = some d ∧ d.length = o ∧ 4 ≤ d.length ∧
      leValue (d.take 4) = 0x5849414D := by
  by_cases hp : 0 < p.length
  swap
  · -- without a last byte there is an `IndexError`
    obtain rfl : p = [] := List.length_eq_zero_iff.mp (Nat.eq_zero_of_not_pos hp)
    constructor
    · intro h
      cases h
    · rintro ⟨h, -⟩
      rw [Pkcs7.unpad, if_neg fun h : Pkcs7.Padded 16 [] => absurd h.1 (by decide)] at h
      cases h
  have hlast : fromEnd p 0 = .ok (p.getD (p.length - 1) 0) := fromEnd_ok.mpr ⟨hp, rfl⟩
  have step : unpadAndJudge o p = if 16 < Pkcs7.lastByte p ∨ Pkcs7.lastByte p = 0 then
      .ok ⟨[.invalidPaddingLength (Pkcs7.lastByte p)], none⟩
    else (verifyPadding p (Pkcs7.lastByte p) (List.range (Pkcs7.lastByte p))).bind fun
      | some line => .ok ⟨[line], none⟩
      | none => .ok ⟨judge o (Pkcs7.strip p), some (Pkcs7.strip p)⟩ := by
    rw [unpadAndJudge, hlast]
    rfl
  rw [step, Pkcs7.unpad, Option.ite_none_right_eq_some, padded_iff, Option.some.injEq]
  by_cases hrange : 16 < Pkcs7.lastByte p ∨ Pkcs7.lastByte p = 0
  · rw [if_pos hrange]
    exact ⟨fun h => (by cases h), fun h => absurd hrange h.1.1.1⟩
  rw [if_neg hrange, and_iff_right hrange]
  cases hv : verifyPadding p (Pkcs7.lastByte p) (List.range (Pkcs7.lastByte p)) with
  | error e => exact ⟨fun h => (by cases h), fun h => (by cases h.1.1)⟩
  | ok r =>
      cases r with
      | some line => exact ⟨fun h => (by cases h), fun h => (by cases h.1.1)⟩
      | none =>
          constructor
          · intro h
            injection h with h
            injection h with hlines hdata
            obtain rfl := Option.some.inj hdata
            exact ⟨⟨rfl, rfl⟩, judge_valid.mp hlines⟩
          · rintro ⟨⟨-, rfl⟩, h⟩
            show Except.ok _ = _
            rw [judge_valid.mpr h]

theorem decryptAndJudge_valid {o : Nat} :
    decryptAndJudge aes key iv ct o = .ok ⟨[.validModel], some d⟩ ↔
      (iv.length = 16 ∧ 16 ∣ ct.length) ∧
        Pkcs7.unpad 16 (Cbc.decryptBytes (aes key) (fun i => iv.getD i 0) ct) = some d ∧
        d.length = o ∧ 4 ≤ d.length ∧ leValue (d.take 4) = 0x5849414D := by
  rw [← unpadAndJudge_valid, decryptAndJudge, cbcDecrypt]
  by_cases hiv : iv.length = 16
  swap
  · rw [if_pos hiv]
    exact ⟨fun h => (by cases h), fun h => absurd h.1.1 hiv⟩
  by_cases hct : ct.length % 16 = 0
  swap
  · rw [if_neg (not_not.mpr hiv), if_pos hct]
    exact ⟨fun h => (by cases h), fun h => absurd (Nat.mod_eq_zero_of_dvd h.1.2) hct⟩
  rw [if_neg (not_not.mpr hiv), if_neg (not_not.mpr hct),
    and_iff_right ⟨hiv, Nat.dvd_of_mod_eq_zero hct⟩]
  rfl

theorem length_slice {start stop : Nat} (h : stop ≤ P.length) :
    (slice P start stop).length = stop - start := by
  rw [slice, List.length_take, List.length_drop]
  omega

theorem unpackI_ok {start : Nat} (h : start + 4 ≤ P.length) :
    unpackI (slice P start (start + 4)) = .ok (leValue ((P.drop start).take 4)) := by
  rw [unpackI, if_pos ((length_slice h).trans (Nat.add_sub_cancel_left _ _)), slice,
    Nat.add_sub_cancel_left]

theorem unpackI_error {start : Nat} (h : P.length < start + 4) :
    unpackI (slice P start (start + 4)) = .error .struct := by
  refine if_neg fun hlen => ?_
  rw [slice, List.length_take, List.length_drop] at hlen
  omega

/-- The lines of a run that ends in an exception are no judgement of a model. -/
theorem testCbcDecrypt_valid :
    testCbcDecrypt aes P key = .ok ⟨[.validModel], some d⟩ ↔
      12 ≤ P.length ∧ decryptAndJudge aes key (slice P 12 28) (P.drop 28)
        (leValue ((P.drop 8).take 4)) = .ok ⟨[.validModel], some d⟩ := by
  rw [testCbcDecrypt]
  by_cases h₀ : 4 ≤ P.length
  swap
  · rw [@unpackI_error P 0 (by omega)]
    exact ⟨fun h => (by cases h), fun h => absurd h.1 (by omega)⟩
  by_cases h₄ : 8 ≤ P.length
  swap
  · rw [@unpackI_ok P 0 (by omega), @unpackI_error P 4 (by omega)]
    exact ⟨fun h => (by cases h), fun h => absurd h.1 (by omega)⟩
  by_cases h₈ : 12 ≤ P.length
  swap
  · rw [@unpackI_ok P 0 (by omega), @unpackI_ok P 4 (by omega),
      @unpackI_error P 8 (by omega)]
    exact ⟨fun h => (by cases h), fun h => absurd h.1 h₈⟩
  rw [@unpackI_ok P 0 (by omega), @unpackI_ok P 4 (by omega),
    @unpackI_ok P 8 (by omega), and_iff_right h₈]
  show (match decryptAndJudge aes key (slice P 12 28) (P.drop 28) (leValue ((P.drop 8).take 4)) with
    | .ok report => .ok report
    | .error e => .ok ⟨[.failed e], none⟩ : Except PyError Report) = _ ↔ _
  cases decryptAndJudge aes key (slice P 12 28) (P.drop 28) (leValue ((P.drop 8).take 4)) with
  | ok report => exact Iff.rfl
  | error e => exact ⟨fun h => (by cases h), fun h => (by cases h)⟩

/-- **The packages that the script calls valid**, without another word. -/
theorem accepts_iff : testCbcDecrypt aes P key = .ok ⟨[.validModel], some d⟩ ↔
    (28 ≤ P.length ∧ 16 ∣ (P.drop 28).length) ∧
      Pkcs7.unpad 16 (Cbc.decryptBytes (aes key) (fun i => P.getD (12 + i.val) 0) (P.drop 28)) =
        some d ∧
      d.length = leValue ((P.drop 8).take 4) ∧ 4 ≤ d.length ∧
      leValue (d.take 4) = 0x5849414D := by
  rw [testCbcDecrypt_valid, decryptAndJudge_valid]
  have hlen : (slice P 12 28).length = 16 ↔ 28 ≤ P.length := by
    rw [slice, List.length_take, List.length_drop]
    omega
  have hiv : (fun i : Fin 16 => (slice P 12 28).getD i 0) = fun i => P.getD (12 + i.val) 0 := by
    funext i
    exact Bytes.getD_slice P 12 16 i i.isLt
  rw [hiv, hlen]
  refine ⟨fun h => h.2, fun h => ⟨?_, h⟩⟩
  have := h.1.1
  omega

end Accepts

end CbcTest
