import NzbDownloader.Extract.Rar5Consistent

/-!
# Opening a volume with encrypted headers

`rar5_vol_open_cb` of `extract/rar5_crypt.c`: it reads the encryption header of the volume,
which is not encrypted itself, and looks for the password among the candidates.
-/

namespace NzbDownloader.Extract

open Lib Lib.Effect Util List

def headCrypt : ℕ := 4
def chflCryptPswcheck : ℕ := 0x0001
def sizePswcheck : ℕ := 8
def sizePswcheckCsum : ℕ := 4

def maxCryptBody : ℕ := 128

structure OpenEnv extends CryptEnv where
  deriveCheck : Bytes → Bytes → ℕ → Bytes
  sha256 : Bytes → Bytes
  openError : String

structure CryptHeader where
  salt : Bytes
  lg2count : ℕ
  check : Option Bytes
  first : Bytes

section Open

variable (env : OpenEnv)

def readCryptBlock : ReadM (Bytes × ℕ) := do
  tryCall env.toCryptEnv env.openError
  let sig ← freadExact env.toCryptEnv rar5Sig.length "not a RAR5 archive"
  if sig ≠ rar5Sig then fail env.toCryptEnv "not a RAR5 archive"
  else
    let pre ← freadExact env.toCryptEnv 7 "truncated archive"
    let (blockSize, pos) := getVint pre 7 4
    let sizeBytes := pos - 4
    if blockSize = 0 ∨ sizeBytes = 0 ∨ blockSize > maxCryptBody then
      fail env.toCryptEnv "corrupt or unsupported encryption header"
    else
      let rest ← freadExact env.toCryptEnv (blockSize - (7 - (4 + sizeBytes))) "truncated archive"
      return (pre.drop (4 + sizeBytes) ++ rest, blockSize)

def parseCryptBlock (body : Bytes) (blockSize : ℕ) : Except String (Bytes × ℕ × ℕ × ℕ) :=
  let (btype, bp) := getVint body blockSize 0
  let (bflags, bp) := getVint body blockSize bp
  if btype ≠ headCrypt then .error "expected an encryption header, found something else"
  else
    let bp := if hasFlag bflags hflExtra then (getVint body blockSize bp).2 else bp
    let bp := if hasFlag bflags hflData then (getVint body blockSize bp).2 else bp
    let (cryptVer, bp) := getVint body blockSize bp
    if cryptVer ≠ cryptVersion then .error "unsupported RAR5 encryption version"
    else
      let (encFlags, bp) := getVint body blockSize bp
      if bp ≥ blockSize then .error "corrupt encryption header"
      else
        let lg2count := (byteAt body bp).toNat
        let bp := bp + 1
        if lg2count > crypt5KdfLg2CountMax ∨ bp + sizeSalt50 > blockSize then
          .error "corrupt encryption header"
        else .ok (readAt body bp sizeSalt50, lg2count, encFlags, bp + sizeSalt50)

def storedCheck (body : Bytes) (blockSize encFlags bp : ℕ) : ReadM (Option Bytes) :=
  if hasFlag encFlags chflCryptPswcheck ∧ bp + sizePswcheck + sizePswcheckCsum ≤ blockSize then do
    let ok := !env.fails (← get).clock
    modify fun v => { v with clock := v.clock + 1 }
    let stored := readAt body bp sizePswcheck
    let csum := readAt body (bp + sizePswcheck) sizePswcheckCsum
    return if ok ∧ csum = (env.sha256 stored).take sizePswcheckCsum then some stored else none
  else return none

def readCryptHeader : ReadM CryptHeader := do
  let (body, blockSize) ← readCryptBlock env
  match parseCryptBlock body blockSize with
  | .error message => fail env.toCryptEnv message
  | .ok (salt, lg2count, encFlags, bp) =>
      let check ← storedCheck env body blockSize encFlags bp
      return ⟨salt, lg2count, check, (← get).input⟩

def archiveKeyOf (crypt : CryptHeader) (password : Bytes) : Bytes :=
  env.deriveKey password crypt.salt crypt.lg2count

def seekFirstHeader (crypt : CryptHeader) : ReadM Unit := do
  tryCall env.toCryptEnv "seek failed"
  modify fun v => { v with input := crypt.first }

/-- Whether a candidate is the password: its check value is the stored one, or
without a stored one the checksum of the first header is right under its key. -/
def tryPassword (crypt : CryptHeader) (password : Bytes) : ReadM Bool :=
  match crypt.check with
  | some stored => return env.deriveCheck password crypt.salt crypt.lg2count = stored
  | none => do
      seekFirstHeader env crypt
      let (_, crcOk) ← readAndDecryptHeader env.toCryptEnv (archiveKeyOf env crypt password)
      return crcOk

def tryPasswords (crypt : CryptHeader) : List Bytes → ReadM Bool
  | [] => return false
  | password :: rest => do
      if ← tryPassword env crypt password then
        modify fun v =>
          { v with
            archiveKey := archiveKeyOf env crypt password
            confirmedPassword := password }
        return true
      else tryPasswords crypt rest

def allocateBuffers : ReadM Unit := do
  let v ← get
  modify fun v => { v with clock := v.clock + 2 }
  if env.fails v.clock ∨ env.fails (v.clock + 1) then throw (.failed "out of memory") else pure ()

def volOpenCb (passwords : List Bytes) : ReadM Unit :=
  if passwords = [] then
    throw (.failed "archive headers are encrypted but no password is configured for this job")
  else do
    let crypt ← readCryptHeader env
    if ← tryPasswords env crypt passwords then
      seekFirstHeader env crypt
      allocateBuffers env
    else
      throw (.failed ("wrong or missing password for encrypted archive (tried " ++
        toString passwords.length ++ " configured password(s))"))

end Open

def SameInput (v w : Vol) : Prop :=
  v.input = w.input

section Calm

variable {env : CryptEnv} (calm : ∀ n, env.fails n = false)

theorem agrees_fail {α : Type} (message : String) :
    Agrees SameInput (fail env message : ReadM α) := by
  refine Agrees.bind ?_ fun _ => agrees_throw _
  exact agrees_modify fun _ _ same => same

theorem returns_freadExact {n : ℕ} {v : Vol} (enough : n ≤ v.input.length) (message : String) :
    Returns (freadExact env n message) v (v.input.take n)
      { v with input := v.input.drop n } := by
  refine returns_get_bind.mpr ?_
  rw [if_neg (not_lt.mpr enough)]
  exact returns_bind.mpr ⟨_, _, rfl, rfl⟩

theorem fails_freadExact {n : ℕ} {v : Vol} (short : v.input.length < n) (message : String) :
    Fails (freadExact env n message) v (.failed (env.path ++ ": " ++ message))
      { v with done := true } := by
  refine fails_bind.mpr (.inr ⟨v, v, rfl, ?_⟩)
  rw [if_pos short]
  rfl

theorem agrees_freadExact (n : ℕ) (message : String) :
    Agrees SameInput (freadExact env n message) := by
  intro v w same
  have sameInput : v.input = w.input := same
  rcases Nat.lt_or_ge v.input.length n with short | enough
  · exact .inr ⟨_, _, _, fails_freadExact short message,
      fails_freadExact (sameInput ▸ short) message, same⟩
  · refine .inl ⟨_, _, { w with input := w.input.drop n }, returns_freadExact enough message, ?_,
      congrArg (drop n) sameInput⟩
    rw [sameInput] at enough ⊢
    exact returns_freadExact enough message

include calm

theorem returns_tryCall (message : String) (v : Vol) :
    Returns (tryCall env message) v () { v with clock := v.clock + 1 } := by
  refine returns_get_bind.mpr (returns_modify_bind.mpr ?_)
  rw [calm]
  rfl

theorem agrees_tryCall (message : String) : Agrees SameInput (tryCall env message) :=
  fun v w same => .inl ⟨(), _, _, returns_tryCall calm message v, returns_tryCall calm message w,
    same⟩

theorem agrees_aes256cbcDecrypt (key iv data : Bytes) :
    Agrees SameInput (aes256cbcDecrypt env key iv data) :=
  (agrees_tryCall calm _).bind fun _ => agrees_pure _

theorem agrees_readAndDecryptHeader (key : Bytes) :
    Agrees SameInput (readAndDecryptHeader env key) := by
  apply (agrees_freadExact _ _).bind
  intro iv
  apply (agrees_freadExact _ _).bind
  intro firstCt
  apply (agrees_aes256cbcDecrypt calm _ _ _).bind
  intro firstPt
  dsimp only
  split
  · exact agrees_fail _
  split
  · exact agrees_fail _
  apply (agrees_tryCall calm _).bind
  intro _
  apply (agrees_freadExact _ _).bind
  intro rest
  apply (agrees_aes256cbcDecrypt calm _ _ _).bind
  intro pt
  split
  · exact agrees_throw _
  · exact agrees_pure _

end Calm

section Passwords

variable (env : OpenEnv) (crypt : CryptHeader)

def Passes (password : Bytes) : Prop :=
  match crypt.check with
  | some stored => env.deriveCheck password crypt.salt crypt.lg2count = stored
  | none => ∃ pt v', Returns
      (readAndDecryptHeader env.toCryptEnv (archiveKeyOf env crypt password))
      (volumeOf crypt.first) (pt, true) v'

def Readable (password : Bytes) : Prop :=
  ∃ header v', Returns (readAndDecryptHeader env.toCryptEnv (archiveKeyOf env crypt password))
    (volumeOf crypt.first) header v'

def Settled (password : Bytes) : Prop :=
  crypt.check.isSome = true ∨ Readable env crypt password

variable {env crypt} (calm : ∀ n, env.fails n = false) {password : Bytes}

theorem Passes.settled (passes : Passes env crypt password) : Settled env crypt password := by
  unfold Passes at passes
  split at passes
  · rename_i stored present
    exact .inl (by rw [present]; rfl)
  · obtain ⟨pt, v', returns⟩ := passes
    exact .inr ⟨_, v', returns⟩

include calm

theorem returns_seekFirstHeader (v : Vol) : Returns (seekFirstHeader env crypt) v ()
    { v with input := crypt.first, clock := v.clock + 1 } :=
  returns_bind.mpr ⟨(), _, returns_tryCall calm _ v, rfl⟩

theorem returns_tryPassword (settled : Settled env crypt password) (v : Vol) :
    ∃ ok v', Returns (tryPassword env crypt password) v ok v' ∧
      (ok = true ↔ Passes env crypt password) := by
  unfold tryPassword Passes
  cases present : crypt.check with
  | some stored => exact ⟨_, v, rfl, decide_eq_true_iff⟩
  | none =>
    rcases settled with checked | ⟨⟨pt, crcOk⟩, w', returns⟩
    · rw [present] at checked
      contradiction
    have start : SameInput (volumeOf crypt.first)
        { v with input := crypt.first, clock := v.clock + 1 } := rfl
    obtain ⟨v', here, _⟩ := (agrees_readAndDecryptHeader calm _).returns start returns
    refine ⟨crcOk, v', returns_bind.mpr ⟨(), _, returns_seekFirstHeader calm v,
      returns_bind.mpr ⟨(pt, crcOk), v', here, rfl⟩⟩, ?_⟩
    constructor
    · rintro rfl
      exact ⟨pt, w', returns⟩
    · rintro ⟨pt', w'', again⟩
      exact (Prod.mk.inj (returns.unique again).1).2

theorem fails_tryPassword (unsettled : ¬Settled env crypt password) (v : Vol) :
    ∃ e v', Fails (tryPassword env crypt password) v e v' := by
  unfold tryPassword
  cases present : crypt.check with
  | some stored => exact absurd (.inl (by rw [present]; rfl)) unsettled
  | none =>
    have start : SameInput (volumeOf crypt.first)
        { v with input := crypt.first, clock := v.clock + 1 } := rfl
    rcases agrees_readAndDecryptHeader calm (archiveKeyOf env crypt password) start with
      ⟨header, w', _, returns, _, _⟩ | ⟨e, _, v', _, fails, _⟩
    · exact absurd (.inr ⟨header, w', returns⟩) unsettled
    · exact ⟨e, v', fails_bind.mpr (.inr ⟨(), _, returns_seekFirstHeader calm v,
        fails_bind.mpr (.inl fails)⟩)⟩

theorem returns_tryPasswords {p : Bytes} {order : List Bytes} (member : p ∈ order)
    (passes : Passes env crypt p) (only : ∀ q ∈ order, Passes env crypt q → q = p)
    (settled : ∀ q ∈ order, Settled env crypt q) (v : Vol) :
    ∃ v', Returns (tryPasswords env crypt order) v true v' ∧
      v'.confirmedPassword = p ∧ v'.archiveKey = archiveKeyOf env crypt p := by
  induction order generalizing v with
  | nil => contradiction
  | cons q rest ih =>
    obtain ⟨ok, t, tried, result⟩ := returns_tryPassword calm (settled q (.head _)) v
    cases ok with
    | true =>
      obtain rfl := only q (.head _) (result.mp rfl)
      exact ⟨_, returns_bind.mpr ⟨true, t, tried, rfl⟩, rfl, rfl⟩
    | false =>
      have later : p ∈ rest := by
        rcases mem_cons.mp member with rfl | later
        · exact absurd (result.mpr passes) Bool.false_ne_true
        · exact later
      obtain ⟨v', returns, found⟩ := ih later
        (fun q inRest => only q (.tail _ inRest))
        (fun q inRest => settled q (.tail _ inRest)) t
      exact ⟨v', returns_bind.mpr ⟨false, t, tried, returns⟩, found⟩

theorem returns_allocateBuffers (v : Vol) :
    Returns (allocateBuffers env) v () { v with clock := v.clock + 2 } := by
  refine returns_get_bind.mpr (returns_modify_bind.mpr ?_)
  simp only [calm, Bool.false_eq_true, or_self, if_false]
  rfl

/-- With every order of the candidates the volume is opened with the right one,
exactly when there is a check value or every wrong candidate gives a first header
that can be read. -/
theorem volOpenCb_any_order_iff {p : Bytes} {passwords : List Bytes} {v v₁ : Vol}
    (encrypted : Returns (readCryptHeader env) v crypt v₁) (member : p ∈ passwords)
    (passes : Passes env crypt p) (only : ∀ q ∈ passwords, Passes env crypt q → q = p) :
    (∀ order, order.Perm passwords → ∃ v', Returns (volOpenCb env order) v () v' ∧
      v'.confirmedPassword = p ∧ v'.archiveKey = archiveKeyOf env crypt p) ↔
      crypt.check.isSome = true ∨ ∀ q ∈ passwords, q ≠ p → Readable env crypt q := by
  constructor
  · intro opens
    by_contra neither
    rw [not_or] at neither
    obtain ⟨unchecked, unreadable⟩ := neither
    push Not at unreadable
    obtain ⟨q, candidate, _, broken⟩ := unreadable
    have unsettled : ¬Settled env crypt q := not_or.mpr ⟨unchecked, broken⟩
    -- The candidate whose header cannot be read comes first.
    have first : (q :: passwords.erase q).Perm passwords := (perm_cons_erase candidate).symm
    obtain ⟨v', returns, _⟩ := opens _ first
    obtain ⟨e, t, fails⟩ := fails_tryPassword calm unsettled v₁
    have never : Fails (volOpenCb env (q :: passwords.erase q)) v e t := by
      rw [volOpenCb, if_neg (cons_ne_nil _ _)]
      exact fails_bind.mpr (.inr ⟨crypt, v₁, encrypted,
        fails_bind.mpr (.inl (fails_bind.mpr (.inl fails)))⟩)
    exact returns.not_fails never
  · intro condition order perm
    have settled : ∀ q ∈ order, Settled env crypt q := by
      intro q candidate
      rcases condition with checked | readable
      · exact .inl checked
      · by_cases right : q = p
        · rw [right]
          exact passes.settled
        · exact .inr (readable q (perm.mem_iff.mp candidate) right)
    obtain ⟨t, found, confirmed, key⟩ := returns_tryPasswords calm (perm.mem_iff.mpr member) passes
      (fun q candidate => only q (perm.mem_iff.mp candidate)) settled v₁
    have nonempty : order ≠ [] := ne_nil_of_mem (perm.mem_iff.mpr member)
    refine ⟨{ t with input := crypt.first, clock := t.clock + 1 + 2 }, ?_, confirmed, key⟩
    rw [volOpenCb, if_neg nonempty]
    exact returns_bind.mpr ⟨crypt, v₁, encrypted, returns_bind.mpr ⟨true, t, found,
      returns_bind.mpr ⟨(), _, returns_seekFirstHeader calm t,
        returns_allocateBuffers calm _⟩⟩⟩

end Passwords

/-! ## Two candidates

The password is the byte 1; any other key turns every block into zeros. -/

def oneKeyCipher : Cipher where
  decrypt key _ data := if key = [1] then data else replicate data.length 0
  length_decrypt key _ data _ := by
    split
    · rfl
    · exact length_replicate

def oneKeyEnv : OpenEnv where
  toCryptEnv := { calm oneKeyCipher with deriveKey := fun password _ _ => password }
  deriveCheck password _ _ := replicate 8 (password.headD 0)
  sha256 _ := replicate 32 0
  openError := "No such file or directory"

def lockedVolume (size encFlags : Byte) (check : Bytes) : Bytes :=
  rar5Sig ++ [0, 0, 0, 0, size, 4, 0, 0, encFlags, 0] ++ replicate 16 0 ++ check ++
    replicate 16 0 ++ endHeader ++ replicate 8 0

def uncheckedVolume : Bytes :=
  lockedVolume 21 0 []

def checkedVolume : Bytes :=
  lockedVolume 33 1 (replicate 8 1 ++ replicate 4 0)

theorem wrong_password_first_fails : ∃ crypt v₁,
    Returns (readCryptHeader oneKeyEnv) (volumeOf uncheckedVolume) crypt v₁ ∧
      Passes oneKeyEnv crypt [1] ∧ ¬Passes oneKeyEnv crypt [2] ∧
      (∃ v', Returns (volOpenCb oneKeyEnv [[1], [2]]) (volumeOf uncheckedVolume) () v') ∧
      ¬∃ v', Returns (volOpenCb oneKeyEnv [[2], [1]]) (volumeOf uncheckedVolume) () v' := by
  have parsed : endsWith (readCryptHeader oneKeyEnv) (volumeOf uncheckedVolume)
      (fun crypt _ => crypt.check = none ∧ crypt.first = uncheckedVolume.drop 34) = true := by
    decide +kernel
  obtain ⟨crypt, v₁, encrypted, seen⟩ := exists_returns_of_endsWith parsed
  obtain ⟨unchecked, first⟩ := of_decide_eq_true seen
  have right : endsWith (readAndDecryptHeader oneKeyEnv.toCryptEnv [1])
      (volumeOf (uncheckedVolume.drop 34)) (fun header _ => header.2) = true := by
    decide +kernel
  have wrong : failsWith (readAndDecryptHeader oneKeyEnv.toCryptEnv [2])
      (volumeOf (uncheckedVolume.drop 34)) (fun _ => true) = true := by
    decide +kernel
  have opens : endsWith (volOpenCb oneKeyEnv [[1], [2]]) (volumeOf uncheckedVolume)
      (fun _ _ => true) = true := by
    decide +kernel
  have refused : failsWith (volOpenCb oneKeyEnv [[2], [1]]) (volumeOf uncheckedVolume)
      (fun _ => true) = true := by
    decide +kernel
  refine ⟨crypt, v₁, encrypted, ?_, ?_, ?_, ?_⟩
  · obtain ⟨⟨pt, crcOk⟩, v', returns, matching⟩ := exists_returns_of_endsWith right
    obtain rfl : crcOk = true := matching
    rw [Passes, unchecked, first]
    exact ⟨pt, v', returns⟩
  · obtain ⟨e, v', fails, _⟩ := exists_fails_of_failsWith wrong
    rw [Passes, unchecked, first]
    rintro ⟨pt, v'', returns⟩
    exact returns.not_fails fails
  · obtain ⟨u, v', returns, _⟩ := exists_returns_of_endsWith opens
    exact ⟨v', returns⟩
  · obtain ⟨e, v', fails, _⟩ := exists_fails_of_failsWith refused
    rintro ⟨v'', returns⟩
    exact returns.not_fails fails

theorem volOpenCb_any_order_checked : ∃ v',
    Returns (volOpenCb oneKeyEnv [[2], [1]]) (volumeOf checkedVolume) () v' ∧
      v'.confirmedPassword = [1] := by
  have parsed : endsWith (readCryptHeader oneKeyEnv) (volumeOf checkedVolume)
      (fun crypt _ => crypt.check = some (replicate 8 1)) = true := by
    decide +kernel
  obtain ⟨crypt, v₁, encrypted, seen⟩ := exists_returns_of_endsWith parsed
  have checked : crypt.check = some (replicate 8 1) := of_decide_eq_true seen
  have only : ∀ q : Byte, Passes oneKeyEnv crypt [q] ↔ q = 1 := by
    intro q
    rw [Passes, checked]
    simp [oneKeyEnv]
  have unique : ∀ q ∈ ([[1], [2]] : List Bytes), Passes oneKeyEnv crypt q → q = [1] := by
    intro q member passes
    rcases mem_pair.mp member with rfl | rfl
    · rfl
    · exact congrArg (fun b => [b]) ((only 2).mp passes)
  obtain ⟨v', returns, confirmed, _⟩ := (volOpenCb_any_order_iff (fun _ => rfl) encrypted
    (.head _) ((only 1).mpr rfl) unique).mpr (.inl (by rw [checked]; rfl)) [[2], [1]]
    (List.Perm.swap _ _ _)
  exact ⟨v', returns, confirmed⟩

end NzbDownloader.Extract
