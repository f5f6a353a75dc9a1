import NzbDownloader.Extract.Rar5Header
import NzbDownloader.Lib.Effect

/-!
# The decrypted stream of a RAR5 volume

The read callback of `extract/rar5_crypt.c`, which hands libarchive a volume with
encrypted headers piece by piece: the signature, then each header decrypted and
rewritten, followed by the data of its entry.  OpenSSL's AES-256-CBC and PBKDF2
are parameters.
-/

namespace NzbDownloader.Extract

open Lib Lib.Effect Util Header

def rar5Sig : Bytes := [0x52, 0x61, 0x72, 0x21, 0x1A, 0x07, 0x01, 0x00]

def streamChunk : ℕ := 256 * 1024

def wholeBlocks (n : ℕ) : ℕ :=
  n / 16 * 16

structure Cipher where
  decrypt : Bytes → Bytes → Bytes → Bytes
  length_decrypt : ∀ key iv data, 16 ∣ data.length → (decrypt key iv data).length = data.length

def Cipher.Forward (cipher : Cipher) : Prop :=
  ∀ key iv data n, 16 ∣ data.length → 16 ∣ n →
    (cipher.decrypt key iv data).take n = cipher.decrypt key iv (data.take n)

structure CryptEnv where
  cipher : Cipher
  deriveKey : Bytes → Bytes → ℕ → Bytes
  fails : ℕ → Bool
  rounds : ℕ
  path : String

structure Context where
  key : Bytes
  iv : Bytes
  fed : Bytes

structure Vol where
  input : Bytes
  archiveKey : Bytes
  confirmedPassword : Bytes
  splitState : SplitState
  done : Bool
  wroteSig : Bool
  inFiledata : Bool
  dataRemaining : ℕ
  writeCap : ℕ
  emittedThisEntry : ℕ
  haveFileCrypt : Bool
  endarcPending : Bool
  fileCtx : Option Context
  clock : ℕ

inductive Halt where
  | failed (message : String)
  /-- It does not return: the loop over extra records goes on, or memory outside a
  buffer is accessed. -/
  | lost
  deriving DecidableEq

abbrev ReadM := EStateM Halt Vol

section Read

variable (env : CryptEnv)

def fail {α : Type} (message : String) : ReadM α := do
  modify fun v => { v with done := true }
  throw (.failed (env.path ++ ": " ++ message))

def tryCall (message : String) : ReadM Unit := do
  let ok := !env.fails (← get).clock
  modify fun v => { v with clock := v.clock + 1 }
  if ok then pure () else fail env message

def freadExact (n : ℕ) (message : String) : ReadM Bytes := do
  let v ← get
  if v.input.length < n then fail env message
  else
    set { v with input := v.input.drop n }
    return v.input.take n

def aes256cbcDecrypt (key iv data : Bytes) : ReadM Bytes := do
  tryCall env "AES decrypt failed"
  return env.cipher.decrypt key iv data

def readAndDecryptHeader (key : Bytes) : ReadM (Bytes × Bool) := do
  let iv ← freadExact env 16 "truncated archive (expected another header)"
  let firstCt ← freadExact env 16 "truncated archive (partial header)"
  let firstPt ← aes256cbcDecrypt env key iv firstCt
  let storedCrc := ofLe (firstPt.take 4)
  let (blockSize, pos) := getVint firstPt 16 4
  let sizeBytes := pos - 4
  if blockSize = 0 ∨ sizeBytes = 0 then fail env "corrupt archive header (bad size field)"
  else
    let totalHeader := (4 + sizeBytes + blockSize) % 2 ^ 64
    if totalHeader > maxHeaderSize then fail env "corrupt archive header (implausible size)"
    else
      let aligned := max 16 (wholeBlocks (totalHeader + 15))
      tryCall env "out of memory"
      let rest ← freadExact env (aligned - 16) "truncated archive (partial header)"
      let pt ← aes256cbcDecrypt env key iv (firstCt ++ rest)
      -- The length of the part under the checksum wraps around.
      if totalHeader < 4 then throw .lost
      else
        let pt := pt.take totalHeader
        return (pt, (crc32 (pt.drop 4)).toNat = storedCrc)

def entryCrypt (pt : Bytes) : ReadM (Option FileCrypt) :=
  if named pt then
    match findFileCrypt pt env.rounds (extraSize pt) (bodyPos pt) with
    | some crypt => return crypt
    | none => throw .lost
  else return none

def entryCap (pt : Bytes) : Option FileCrypt → SplitState → ℕ × SplitState
  | some crypt, split => writeCap (flags pt) (dataSize pt) crypt split
  | none, split => (uint64Max, split)

def beginData (pt : Bytes) (crypt : Option FileCrypt) (cap : ℕ) : ReadM Unit := do
  modify fun v =>
    { v with
      inFiledata := true
      dataRemaining := dataSize pt
      writeCap := cap
      emittedThisEntry := 0
      haveFileCrypt := crypt.isSome
      endarcPending := type pt = headEndarc }
  match crypt with
  | none => pure ()
  | some found =>
      tryCall env "AES init failed"
      modify fun v =>
        { v with
          fileCtx := some
            ⟨env.deriveKey v.confirmedPassword found.salt found.lg2count, found.iv, []⟩ }

def afterHeader (pt : Bytes) (crypt : Option FileCrypt) (cap : ℕ) : ReadM Unit :=
  if dataSize pt > 0 then beginData env pt crypt cap
  else if type pt = headEndarc then modify fun v => { v with done := true }
  else pure ()

def nextHeaderChunk : ReadM Bytes := do
  let v ← get
  if v.input = [] then
    modify fun v => { v with done := true }
    return []
  else
    let (pt, crcOk) ← readAndDecryptHeader env v.archiveKey
    if !crcOk then fail env "corrupt header (checksum mismatch)"
    else
      let crypt ← entryCrypt env pt
      let (cap, split) := entryCap pt crypt v.splitState
      modify fun v => { v with splitState := split }
      afterHeader env pt crypt cap
      return rewriteHeader pt crypt cap

def decryptUpdate (data : Bytes) : ReadM Bytes := do
  tryCall env "decrypt failed (file data)"
  let v ← get
  match v.fileCtx with
  | none => throw .lost
  | some ctx =>
      let fed := ctx.fed ++ data
      set { v with fileCtx := some { ctx with fed := fed } }
      return (env.cipher.decrypt ctx.key ctx.iv (fed.take (wholeBlocks fed.length))).drop
        (wholeBlocks ctx.fed.length)

/-- `EVP_DecryptFinal_ex` and the end of the context: without padding an
incomplete block is an error, and nothing is left to put out. -/
def decryptFinal : ReadM Bytes := do
  let v ← get
  match v.fileCtx with
  | none => throw .lost
  | some ctx =>
      set { v with fileCtx := none }
      tryCall env "decrypt failed (file data trailer)"
      if ctx.fed.length % 16 ≠ 0 then fail env "decrypt failed (file data trailer)"
      else return []

def finishData : ReadM Bytes := do
  if (← get).haveFileCrypt then decryptFinal env else return []

def Vol.room (v : Vol) (n : ℕ) : ℕ :=
  min n (if v.writeCap > v.emittedThisEntry then v.writeCap - v.emittedThisEntry else 0)

def readData : ReadM Bytes := do
  let v ← get
  let chunk := min v.dataRemaining streamChunk
  let data ← freadExact env chunk "truncated archive (file data)"
  modify fun v => { v with dataRemaining := v.dataRemaining - chunk }
  if v.haveFileCrypt then decryptUpdate env data else return data

/-- The loop of `rar5_next_filedata_chunk`: the next chunk, or `none` if the data
is exhausted.  Each round consumes a byte at least. -/
def filedataLoop : ℕ → ReadM (Option Bytes)
  | 0 => return none
  | rounds + 1 => do
      if (← get).dataRemaining = 0 then return none
      else
        let out ← readData env
        let room := (← get).room out.length
        if room = 0 then filedataLoop rounds
        else
          modify fun v => { v with emittedThisEntry := v.emittedThisEntry + room }
          return some (out.take room)

def nextFiledataChunk : ReadM Bytes := do
  let v ← get
  match ← filedataLoop env v.dataRemaining with
  | some chunk => return chunk
  | none =>
      modify fun v => { v with inFiledata := false }
      let tail ← finishData env
      let v ← get
      let room := v.room tail.length
      if room > 0 then
        modify fun v =>
          { v with
            emittedThisEntry := v.emittedThisEntry + room
            done := v.done || v.endarcPending }
        return tail.take room
      else if v.endarcPending then
        modify fun v => { v with done := true }
        return []
      else nextHeaderChunk env

def volReadCb : ReadM Bytes := do
  let v ← get
  if v.done then return []
  else if !v.wroteSig then
    modify fun v => { v with wroteSig := true }
    return rar5Sig
  else if v.inFiledata then nextFiledataChunk env
  else nextHeaderChunk env

inductive Calls : Vol → List Bytes → Vol → Prop
  | nil (v : Vol) : Calls v [] v
  | cons {v v' v'' : Vol} {chunk : Bytes} {chunks : List Bytes} :
      Returns (volReadCb env) v chunk v' → Calls v' chunks v'' → Calls v (chunk :: chunks) v''

def readCalls : ℕ → Vol → Option (List Bytes × Vol)
  | 0, v => some ([], v)
  | n + 1, v =>
      match volReadCb env v with
      | .ok chunk v' => (readCalls n v').map fun (chunks, v'') => (chunk :: chunks, v'')
      | .error _ _ => none

theorem calls_of_readCalls {n : ℕ} {v v' : Vol} {chunks : List Bytes}
    (executed : readCalls env n v = some (chunks, v')) : Calls env v chunks v' := by
  induction n generalizing v chunks with
  | zero =>
    cases executed
    exact .nil _
  | succ n ih =>
    rw [readCalls] at executed
    split at executed
    · rename_i chunk w returned
      obtain ⟨⟨rest, w'⟩, later, same⟩ := Option.map_eq_some_iff.mp executed
      cases same
      exact .cons returned (ih later)
    · contradiction

theorem exists_calls {n : ℕ} {v : Vol} {chunks : List Bytes}
    (executed : (readCalls env n v).map Prod.fst = some chunks) : ∃ v', Calls env v chunks v' := by
  obtain ⟨⟨_, v'⟩, run, rfl⟩ := Option.map_eq_some_iff.mp executed
  exact ⟨v', calls_of_readCalls env run⟩

end Read

end NzbDownloader.Extract
