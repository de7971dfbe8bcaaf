import Mathlib.Data.List.DropRight
import Mathlib.Logic.Function.Basic
import Pico2wTfm.Support.Replace
import Pico2wTfm.Tools.Encryptor
import Pico2wTfm.Tools.Header

/-!
# Tools — Files

`encrypt_tinymaix_model`, `generate_c_header` and `main` of `tinymaix_model_encryptor.py`: which files
they write, in which order, under which names, with what in them.

A file system is a map from files to contents; `Tool.node` says which file a path denotes, so that two
paths may denote one file.  What comes from outside is in `Tool` as well: the random bytes, the text
encoding, and which files can be opened.  A run that ends with an exception is `none`.
-/

namespace Encryptor
open Bytes Replace

abbrev Path := List Char

def binExt : Path := ['.', 'b', 'i', 'n']
def keyExt : Path := ['.', 'k', 'e', 'y']
def hExt : Path := ['.', 'h']
def cExt : Path := ['.', 'c']

/-- The contents of the files that exist. -/
abbrev Files (ν : Type) := ν → Option (List Byte)

structure Tool (ν : Type) where
  py : Python
  /-- `str.upper`. -/
  upper : List Char → List Char
  aes : Cipher
  /-- `PBKDF2HMAC` of a password and a salt. -/
  pbkdf2 : List Char → Cbc.Block 16 → Cbc.Block 16
  randomKey : Cbc.Block 16
  salt : Cbc.Block 16
  iv : Cbc.Block 16
  node : Path → ν
  writable : Path → Bool
  chmod : Path → Bool
  decode : List Byte → Option (List Char)
  encode : List Char → Option (List Byte)

/-! ### Paths -/

/-- `os.path.basename`. -/
def basename (p : Path) : Path := p.rtakeWhile (· != '/')

/-- `os.path.dirname`. -/
def dirname (p : Path) : Path :=
  let head := p.rdropWhile (· != '/')
  if head.all (· == '/') then head else head.rdropWhile (· == '/')

/-! ### Contents -/

/-- `AES_KEY_SIZE` and `SALT_SIZE`. -/
def aesKeySize : Nat := 16
def saltSize : Nat := 16

/-- `VERSION`. -/
def version : Nat := 3

/-- `PSA_CRYPTO_TEST_KEY`. -/
def psaCryptoTestKey : List Byte :=
  [0x40, 0xc9, 0x62, 0xd6, 0x6a, 0x1f, 0xa4, 0x03, 0x46, 0xca, 0xc8, 0xb7, 0xe6, 0x12, 0x74, 0xe1]

/-- The block of the first 16 bytes. -/
def blockAt (bs : List Byte) : Cbc.Block 16 := fun i => bs.getD i 0

def natText (n : Nat) : List Char := Nat.toDigits 10 n

/-- Two hexadecimal digits. -/
def hex2 (b : Byte) : List Char := [Nat.digitChar (b.toNat / 16), Nat.digitChar (b.toNat % 16)]

def unlines (ls : List (List Char)) : List Char := ls.flatMap (· ++ ['\n'])

/-- The header that `generate_c_header` writes. -/
def headerText (upper : List Char → List Char) (arrayName : List Char) : List Char :=
  unlines
    ["/* Auto-generated encrypted TinyMAIX model */".toList,
      "/* Generated by tinymaix_model_encryptor.py */".toList, [],
      "#ifndef ENCRYPTED_TINYMAIX_MODEL_H".toList,
      "#define ENCRYPTED_TINYMAIX_MODEL_H".toList, [],
      "#include <stdint.h>".toList, "#include <stddef.h>".toList, [],
      "/* Encrypted model data */".toList,
      "extern const uint8_t ".toList ++ arrayName ++ "_data[];".toList,
      "extern const size_t ".toList ++ arrayName ++ "_size;".toList, [],
      "/* Model metadata */".toList,
      "#define ".toList ++ upper arrayName ++ "_MAGIC_HEADER 0x".toList ++
        (magicHeader.reverse.flatMap hex2).map Char.toUpper,
      "#define ".toList ++ upper arrayName ++ "_VERSION ".toList ++ natText version, [],
      "#endif /* ENCRYPTED_TINYMAIX_MODEL_H */".toList]

/-- `', '.join` of the bytes of a line. -/
def hexRow (chunk : List Byte) : List Char :=
  (", ".toList).intercalate (chunk.map fun b => ['0', 'x'] ++ hex2 b)

/-- The lines of 16 bytes each. -/
def hexRows (package : List Byte) : List (List Char) :=
  (List.range ((package.length + 15) / 16)).map fun i =>
    "    ".toList ++ hexRow ((package.drop (16 * i)).take 16) ++ [',']

/-- The source that `generate_c_header` writes. -/
def sourceText (package : List Byte) (headerFilePath : Path) (arrayName : List Char) :
    List Char :=
  unlines
    (["/* Auto-generated encrypted TinyMAIX model */".toList,
      "/* Generated by tinymaix_model_encryptor.py */".toList, [],
      "#include \"".toList ++ basename headerFilePath ++ ['"'], [],
      "/* Encrypted model data (".toList ++ natText package.length ++ " bytes) */".toList,
      "const uint8_t ".toList ++ arrayName ++ "_data[] = ".toList ++ ['{']] ++
    hexRows package ++
    [['}', ';'], [],
      "const size_t ".toList ++ arrayName ++ "_size = sizeof(".toList ++ arrayName ++
        "_data);".toList, []])

/-! ### The functions -/

section Functions

variable {ν : Type} [DecidableEq ν] (t : Tool ν)

/-- The file at `p` gets new contents. -/
def Tool.put (fs : Files ν) (p : Path) (data : List Byte) : Files ν :=
  Function.update fs (t.node p) (some data)

def Tool.write (fs : Files ν) (p : Path) (data : List Byte) : Option (Files ν) :=
  if t.writable p then some (t.put fs p data) else none

/-- `derive_key_from_password`, with a fresh salt. -/
def Tool.deriveKeyFromPassword (password : List Char) : Cbc.Block 16 × Option (Cbc.Block 16) :=
  (t.pbkdf2 password t.salt, some t.salt)

/-- `load_key_file`. -/
def Tool.loadKeyFile (fs : Files ν) (keyFilePath : Path) :
    Option (Cbc.Block 16 × Option (Cbc.Block 16)) := do
  let keyData ← fs (t.node keyFilePath)
  if keyData.length = aesKeySize then some (blockAt keyData, none)
  else if keyData.length = saltSize + aesKeySize then
    some (blockAt (keyData.drop saltSize), some (blockAt keyData))
  else none

/-- The bytes that `save_key_file` writes. -/
def keyFileData (key : Cbc.Block 16) (salt : Option (Cbc.Block 16)) : List Byte :=
  (salt.elim [] fun s => List.ofFn s) ++ List.ofFn key

/-- `save_key_file`. -/
def Tool.saveKeyFile (fs : Files ν) (key : Cbc.Block 16) (keyFilePath : Path)
    (salt : Option (Cbc.Block 16)) : Option (Files ν) := do
  let fs ← t.write fs keyFilePath (keyFileData key salt)
  if t.chmod keyFilePath then some fs else none

/-- `generate_c_header`. -/
def Tool.generateCHeader (fs : Files ν) (package : List Byte) (headerFilePath : Path)
    (arrayName : List Char) : Option (Files ν) := do
  let headerContent ← t.encode (headerText t.upper arrayName)
  let fs ← t.write fs headerFilePath headerContent
  let sourceContent ← t.encode (sourceText package headerFilePath arrayName)
  t.write fs (replaceAll hExt cExt headerFilePath) sourceContent

/-- The key and the salt that a run works with.  An empty string is as good as none. -/
def Tool.chooseKey (fs : Files ν) (keyPath : Option Path) (password : Option (List Char))
    (generateKey usePsaKey : Bool) : Option (Cbc.Block 16 × Option (Cbc.Block 16)) :=
  if usePsaKey then some (blockAt psaCryptoTestKey, none)
  else if generateKey then
    match password with
    | some (c :: cs) => some (t.deriveKeyFromPassword (c :: cs))
    | _ => some (t.randomKey, none)
  else
    match keyPath with
    | some (c :: cs) => t.loadKeyFile fs (c :: cs)
    | _ => none

/-- The key file of a run that saves its key. -/
def savedKey (keyPath : Option Path) (generateKey usePsaKey : Bool) : Option Path :=
  match keyPath with
  | some (c :: cs) => if generateKey || usePsaKey then some (c :: cs) else none
  | _ => none

/-- `encrypt_tinymaix_model`; a run returns the package and the files it leaves. -/
def Tool.encryptTinymaixModel (inputPath outputPath : Path) (keyPath : Option Path)
    (password : Option (List Char)) (generateKey generateCHeader usePsaKey : Bool)
    (fs : Files ν) : Option (List Byte × Files ν) := do
  let headerContent ← (← fs (t.node inputPath)) |> t.decode
  let parsed ← (parseTinymaixHeader t.py headerContent).toOption
  let key ← t.chooseKey fs keyPath password generateKey usePsaKey
  let package ← createEncryptedPackage t.aes parsed.modelData key.1 t.iv
  let fs ← t.write fs outputPath package
  let fs ← (match savedKey keyPath generateKey usePsaKey with
    | some p => t.saveKeyFile fs key.1 p (if generateKey then key.2 else none)
    | none => some fs)
  let fs ← (if generateCHeader then
      t.generateCHeader fs package (replaceAll binExt hExt outputPath)
        ("encrypted_".toList ++ parsed.arrayName)
    else some fs)
  return (package, fs)

end Functions

/-- The group of options of which one is required. -/
inductive KeyOption where
  | keyFile (path : Path)
  | generateKey
  | usePsaKey
deriving DecidableEq, Repr

/-- The arguments that `main` accepts. -/
structure Args where
  input : Path
  output : Path
  keyOption : KeyOption
  password : Option (List Char)
  generateCHeader : Bool
  outputKey : Option Path
deriving DecidableEq, Repr

namespace Args

def generateKey (a : Args) : Bool := a.keyOption = .generateKey
def usePsaKey (a : Args) : Bool := a.keyOption = .usePsaKey

/-- `args.output_key`, once the default is in; an empty string is as good as none. -/
def outputKeyPath (a : Args) : Path :=
  match a.outputKey with
  | some (c :: cs) => c :: cs
  | _ => replaceAll binExt keyExt a.output

/-- The `key_path` of the call. -/
def keyPath (a : Args) : Path :=
  match a.keyOption with
  | .keyFile path => path
  | _ => a.outputKeyPath

end Args

/-- `main`. -/
def Tool.main {ν : Type} [DecidableEq ν] (t : Tool ν) (a : Args) (fs : Files ν) :
    Option (List Byte × Files ν) :=
  if fs (t.node a.input) = none then none
  else t.encryptTinymaixModel a.input a.output (some a.keyPath) a.password a.generateKey
    a.generateCHeader a.usePsaKey fs

end Encryptor
