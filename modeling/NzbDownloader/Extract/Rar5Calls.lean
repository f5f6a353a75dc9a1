import NzbDownloader.Extract.Rar5Stream

/-!
# What one call returns

The layout of a volume, defined from its bytes without the state machine of the
callback, and what a call that returns a chunk does: at a header, and within the
data of an entry.
-/

namespace NzbDownloader.Extract

open Lib Lib.Effect Util List Header Vol Nat

/-- A header block at the front of the input: the initialisation vector, then
whole blocks that begin with the header. -/
def HeaderAt (cipher : Cipher) (key input pt rest : Bytes) : Prop :=
  ∃ iv ct, input = iv ++ ct ++ rest ∧ iv.length = 16 ∧
    ct.length = max 16 (wholeBlocks (pt.length + 15)) ∧
    pt = (cipher.decrypt key iv ct).take pt.length ∧
    pt.length = ((getVint (cipher.decrypt key iv ct) 16 4).2 +
      (getVint (cipher.decrypt key iv ct) 16 4).1) % 2 ^ 64

inductive Layout (cipher : Cipher) (key : Bytes) : Bytes → List Bytes → Prop
  | eof : Layout cipher key [] []
  | last {input pt rest : Bytes} : HeaderAt cipher key input pt rest →
      type pt = headEndarc → dataSize pt ≤ rest.length → Layout cipher key input [pt]
  | next {input pt rest : Bytes} {pts : List Bytes} : HeaderAt cipher key input pt rest →
      type pt ≠ headEndarc → dataSize pt ≤ rest.length →
      Layout cipher key (rest.drop (dataSize pt)) pts → Layout cipher key input (pt :: pts)

theorem length_le_wholeBlocks (n : ℕ) : n ≤ max 16 (wholeBlocks (n + 15)) := by
  unfold wholeBlocks
  omega

theorem dvd_wholeBlocks (n : ℕ) : 16 ∣ max 16 (wholeBlocks n) := by
  unfold wholeBlocks
  omega

def Cipher.ShowsSize (cipher : Cipher) : Prop :=
  ∀ key iv ct, 16 ∣ ct.length → 16 ≤ ct.length →
    getVint (cipher.decrypt key iv ct) 16 4 = getVint (cipher.decrypt key iv (ct.take 16)) 16 4

section Headers

variable {cipher : Cipher} {key input : Bytes}

theorem Cipher.Forward.showsSize (forward : cipher.Forward) : cipher.ShowsSize := by
  intro key iv ct blocks _
  apply getVint_congr
  intro i _ high
  have inside := (@getVint_pos (cipher.decrypt key iv (ct.take 16)) 16 4).2.2
  rw [← forward key iv ct 16 blocks (dvd_refl 16), byteAt_take, if_pos (by omega)]

variable (cipher key) in
def firstHeader (input : Bytes) : Bytes × Bytes :=
  let iv := input.take 16
  let size := getVint (cipher.decrypt key iv ((input.drop 16).take 16)) 16 4
  let total := (size.2 + size.1) % 2 ^ 64
  let aligned := max 16 (wholeBlocks (total + 15))
  ((cipher.decrypt key iv ((input.drop 16).take aligned)).take total, input.drop (16 + aligned))

variable (cipher key) in
def volumeHeaders : ℕ → Bytes → List Bytes
  | 0, _ => []
  | rounds + 1, input =>
      if input = [] then []
      else
        let (pt, rest) := firstHeader cipher key input
        if type pt = headEndarc then [pt]
        else pt :: volumeHeaders rounds (rest.drop (dataSize pt))

theorem HeaderAt.eq_firstHeader {pt rest : Bytes} (shows' : cipher.ShowsSize)
    (headerAt : HeaderAt cipher key input pt rest) :
    firstHeader cipher key input = (pt, rest) ∧ rest.length < input.length := by
  obtain ⟨iv, ct, rfl, ivLength, length, plain, total⟩ := headerAt
  have blocks : 16 ∣ ct.length := length ▸ dvd_wholeBlocks _
  have long : 16 ≤ ct.length := length ▸ le_max_left _ _
  have front : (iv ++ ct ++ rest).take 16 = iv := by
    rw [append_assoc, take_left' ivLength]
  have after : (iv ++ ct ++ rest).drop 16 = ct ++ rest := by
    rw [append_assoc, drop_left' ivLength]
  have first : (ct ++ rest).take 16 = ct.take 16 := take_append_of_le_length long
  rw [shows' key iv ct blocks long] at total
  constructor
  · unfold firstHeader
    dsimp only
    rw [front, after, first, ← total, ← length, take_left, ← plain, ← drop_drop, after,
      drop_left]
  · simp only [length_append]
    omega

theorem Layout.eq_volumeHeaders {headers : List Bytes} {rounds : ℕ} (shows' : cipher.ShowsSize)
    (layout : Layout cipher key input headers) (enough : input.length ≤ rounds) :
    headers = volumeHeaders cipher key rounds input := by
  induction layout generalizing rounds with
  | eof => cases rounds <;> rfl
  | last headerAt endarc _ =>
    obtain ⟨first, shorter⟩ := headerAt.eq_firstHeader shows'
    obtain ⟨rounds, rfl⟩ := exists_eq_add_one_of_ne_zero (by omega : rounds ≠ 0)
    rw [volumeHeaders, if_neg (ne_nil_of_length_pos (by omega)), first]
    dsimp only
    rw [if_pos endarc]
  | next headerAt other _ _ ih =>
    obtain ⟨first, shorter⟩ := headerAt.eq_firstHeader shows'
    obtain ⟨rounds, rfl⟩ := exists_eq_add_one_of_ne_zero (by omega : rounds ≠ 0)
    rw [volumeHeaders, if_neg (ne_nil_of_length_pos (by omega)), first]
    dsimp only
    rw [if_neg other, ← ih (by rw [length_drop]; omega)]

end Headers

def Vol.advance (v : Vol) (input : Bytes) (clock : ℕ) : Vol :=
  { v with input := input, clock := clock }

@[simp]
theorem Vol.advance_input (v : Vol) (input : Bytes) (clock : ℕ) :
    (v.advance input clock).input = input :=
  rfl

section Calls

variable {env : CryptEnv} {v v' : Vol}

theorem fail_spec {α : Type} {message : String} {a : α} :
    ¬Returns (fail env message : ReadM α) v a v' := by
  intro returns
  obtain ⟨_, _, _, thrown⟩ := returns_bind.mp returns
  exact returns_throw thrown

theorem tryCall_spec {message : String} {u : Unit}
    (returns : Returns (tryCall env message) v u v') :
    v' = v.advance v.input (v.clock + 1) := by
  have rest := returns_modify_bind.mp (returns_get_bind.mp returns)
  split at rest
  · obtain ⟨_, rfl⟩ := returns_pure.mp rest
    rfl
  · exact absurd rest fail_spec

theorem freadExact_spec {n : ℕ} {message : String} {bytes : Bytes}
    (returns : Returns (freadExact env n message) v bytes v') :
    bytes.length = n ∧ v.input = bytes ++ v'.input ∧ v' = v.advance v'.input v.clock := by
  have rest := returns_get_bind.mp returns
  split at rest
  · exact absurd rest fail_spec
  · obtain ⟨_, _, stored, done⟩ := returns_bind.mp rest
    obtain ⟨rfl, rfl⟩ := returns_pure.mp done
    cases stored
    exact ⟨by rw [length_take]; omega, (take_append_drop n _).symm, rfl⟩

theorem aes256cbcDecrypt_spec {key iv data out : Bytes}
    (returns : Returns (aes256cbcDecrypt env key iv data) v out v') :
    out = env.cipher.decrypt key iv data ∧ v' = v.advance v.input (v.clock + 1) := by
  obtain ⟨_, _, called, done⟩ := returns_bind.mp returns
  obtain ⟨rfl, rfl⟩ := returns_pure.mp done
  exact ⟨rfl, tryCall_spec called⟩

structure Credible (pt : Bytes) : Prop where
  long : 4 ≤ pt.length
  bounded : pt.length ≤ maxHeaderSize
  sized : ∀ next, getVint pt pt.length 4 = (1, next) → pt.length = next + 1

theorem header_of_blocks {cipher : Cipher} {key iv first more rest : Bytes} {total : ℕ}
    (forward : cipher.Forward) (ivLength : iv.length = 16) (firstLength : first.length = 16)
    (totalEq : total = ((getVint (cipher.decrypt key iv first) 16 4).2 +
      (getVint (cipher.decrypt key iv first) 16 4).1) % 2 ^ 64)
    (length : (first ++ more).length = max 16 (wholeBlocks (total + 15))) (long : 4 ≤ total)
    (bounded : total ≤ maxHeaderSize) :
    HeaderAt cipher key (iv ++ (first ++ more) ++ rest)
        ((cipher.decrypt key iv (first ++ more)).take total) rest ∧
      Credible ((cipher.decrypt key iv (first ++ more)).take total) ∧
      ((cipher.decrypt key iv (first ++ more)).take total).take 4 =
        (cipher.decrypt key iv first).take 4 := by
  have blocks : 16 ∣ (first ++ more).length := by
    rw [length]
    exact dvd_wholeBlocks _
  have plainLength := cipher.length_decrypt key iv (first ++ more) blocks
  have firstPt : (cipher.decrypt key iv (first ++ more)).take 16 = cipher.decrypt key iv first := by
    rw [forward key iv _ 16 blocks (dvd_refl 16), take_left' firstLength]
  have ptLength : ((cipher.decrypt key iv (first ++ more)).take total).length = total := by
    have := length_le_wholeBlocks total
    rw [length_take]
    omega
  have size : getVint (cipher.decrypt key iv (first ++ more)) 16 4 =
      getVint (cipher.decrypt key iv first) 16 4 := by
    rw [forward.showsSize key iv _ blocks (length ▸ le_max_left _ _), take_left' firstLength]
  generalize decrypted : cipher.decrypt key iv (first ++ more) = plain at *
  rw [← size] at totalEq
  refine ⟨⟨iv, first ++ more, rfl, ivLength, ?_⟩, ⟨?_, ?_, fun next one => ?_⟩, ?_⟩
  · rw [decrypted, ptLength]
    exact ⟨length, rfl, totalEq⟩
  · rwa [ptLength]
  · rwa [ptLength]
  · -- The size that the whole header shows is the one its first block showed.
    have moved := @getVint_pos (plain.take total) (plain.take total).length 4
    have within : getVint (plain.take total) 16 4 = (1, next) := by
      rw [← one]
      exact getVint_len (by rw [one]; exact one_ne_zero) (by omega)
    have same : getVint plain 16 4 = (1, next) := by
      rw [← within]
      apply getVint_congr
      intro i _ high
      rw [within] at high
      rw [one] at moved
      rw [byteAt_take, if_pos (by dsimp only at moved high; omega)]
    rw [same] at totalEq
    rw [one] at moved
    rw [ptLength, totalEq]
    omega
  · rw [take_take, ← firstPt, take_take, min_eq_left long, min_eq_left (by decide)]

theorem readAndDecryptHeader_spec {key pt : Bytes} {crcOk : Bool} (forward : env.cipher.Forward)
    (returns : Returns (readAndDecryptHeader env key) v (pt, crcOk) v') :
    HeaderAt env.cipher key v.input pt v'.input ∧ Credible pt ∧
      (crcOk → Header.CrcMatches pt) ∧ v' = v.advance v'.input v'.clock := by
  obtain ⟨iv, v₁, readIv, returns⟩ := returns_bind.mp returns
  obtain ⟨ivLength, input₁, same₁⟩ := freadExact_spec readIv
  obtain ⟨first, v₂, readFirst, returns⟩ := returns_bind.mp returns
  obtain ⟨firstLength, input₂, same₂⟩ := freadExact_spec readFirst
  obtain ⟨firstPt, v₃, decryptedFirst, returns⟩ := returns_bind.mp returns
  obtain ⟨rfl, same₃⟩ := aes256cbcDecrypt_spec decryptedFirst
  dsimp only at returns
  split at returns
  · exact absurd returns fail_spec
  split at returns
  · exact absurd returns fail_spec
  rename_i bounded
  obtain ⟨_, v₄, allocated, returns⟩ := returns_bind.mp returns
  have same₄ := tryCall_spec allocated
  obtain ⟨more, v₅, readMore, returns⟩ := returns_bind.mp returns
  obtain ⟨moreLength, input₅, same₅⟩ := freadExact_spec readMore
  obtain ⟨plain, v₆, decrypted, returns⟩ := returns_bind.mp returns
  obtain ⟨rfl, same₆⟩ := aes256cbcDecrypt_spec decrypted
  split at returns
  · exact absurd returns returns_throw
  rename_i long
  obtain ⟨result, rfl⟩ := returns_pure.mp returns
  cases result
  have total : 4 + ((getVint (env.cipher.decrypt key iv first) 16 4).2 - 4) +
      (getVint (env.cipher.decrypt key iv first) 16 4).1 =
        (getVint (env.cipher.decrypt key iv first) 16 4).2 +
          (getVint (env.cipher.decrypt key iv first) 16 4).1 := by
    omega
  rw [total] at bounded moreLength long ⊢
  have input₄ : v₄.input = v₂.input := by rw [same₄, same₃, advance_input, advance_input]
  have joined : v.input = iv ++ (first ++ more) ++ v₅.input := by
    rw [input₁, input₂, ← input₄, input₅, append_assoc, append_assoc]
  obtain ⟨headerAt, credible, firstBytes⟩ := @header_of_blocks env.cipher key iv first more v₅.input
    _ forward ivLength firstLength rfl (by rw [length_append, firstLength, moreLength]; omega)
    (by omega) (by omega)
  rw [same₆, advance_input, joined]
  refine ⟨headerAt, credible, fun matching => ?_, ?_⟩
  · rw [Header.CrcMatches, firstBytes]
    exact (of_decide_eq_true matching).symm
  · rw [same₅, same₄, same₃, same₂, same₁]
    rfl

structure Rewriting (env : CryptEnv) (pt : Bytes) (crypt : Option FileCrypt) (cap : ℕ) : Prop where
  credible : Credible pt
  crc : Header.CrcMatches pt
  found : ∀ record, crypt = some record → named pt = true ∧
    findFileCrypt pt env.rounds (extraSize pt) (bodyPos pt) = some (some record)
  capped : cap ≠ uint64Max → cap < dataSize pt
  plain : crypt = none → cap = uint64Max

structure SameKeys (v v' : Vol) : Prop where
  archiveKey : v'.archiveKey = v.archiveKey
  confirmedPassword : v'.confirmedPassword = v.confirmedPassword
  wroteSig : v'.wroteSig = v.wroteSig

theorem SameKeys.trans {v v' v'' : Vol} (first : SameKeys v v') (second : SameKeys v' v'') :
    SameKeys v v'' :=
  ⟨second.archiveKey.trans first.archiveKey,
    second.confirmedPassword.trans first.confirmedPassword, second.wroteSig.trans first.wroteSig⟩

structure Begun (v : Vol) (pt : Bytes) (crypt : Option FileCrypt) (cap : ℕ) : Prop where
  inFiledata : v.inFiledata = true
  dataRemaining : v.dataRemaining = dataSize pt
  writeCap : v.writeCap = cap
  emitted : v.emittedThisEntry = 0
  haveFileCrypt : v.haveFileCrypt = crypt.isSome
  endarcPending : v.endarcPending = decide (type pt = headEndarc)
  context : crypt.isSome = true → ∃ ctx, v.fileCtx = some ctx ∧ ctx.fed = []

structure Started (env : CryptEnv) (password : Bytes) (v : Vol) (pt : Bytes)
    (crypt : Option FileCrypt) (cap : ℕ) : Prop extends Begun v pt crypt cap where
  cipher : ∀ found, crypt = some found →
    v.fileCtx = some ⟨env.deriveKey password found.salt found.lg2count, found.iv, []⟩

def Recorded (env : CryptEnv) (pt : Bytes) (crypt : Option FileCrypt) : Prop :=
  if named pt then
    findFileCrypt pt env.rounds (extraSize pt) (bodyPos pt) = some crypt
  else crypt = none

theorem Recorded.found {pt : Bytes} {crypt : Option FileCrypt} (recorded : Recorded env pt crypt) :
    ∀ record, crypt = some record → named pt ∧
      findFileCrypt pt env.rounds (extraSize pt) (bodyPos pt) = some (some record) := by
  rintro record rfl
  unfold Recorded at recorded
  split at recorded
  · rename_i named
    exact ⟨named, recorded⟩
  · contradiction

theorem entryCrypt_spec {pt : Bytes} {crypt : Option FileCrypt}
    (returns : Returns (entryCrypt env pt) v crypt v') : v' = v ∧ Recorded env pt crypt := by
  unfold entryCrypt at returns
  unfold Recorded
  split at returns
  · rename_i named
    rw [if_pos named]
    split at returns
    · rename_i found
      obtain ⟨rfl, rfl⟩ := returns_pure.mp returns
      exact ⟨rfl, found⟩
    · exact absurd returns returns_throw
  · rename_i nameless
    rw [if_neg nameless]
    obtain ⟨rfl, rfl⟩ := returns_pure.mp returns
    exact ⟨rfl, rfl⟩

theorem beginData_spec {pt : Bytes} {crypt : Option FileCrypt} {cap : ℕ} {u : Unit}
    (returns : Returns (beginData env pt crypt cap) v u v') :
    Started env v.confirmedPassword v' pt crypt cap ∧ v'.input = v.input ∧ v'.done = v.done ∧
      SameKeys v v' ∧ v'.splitState = v.splitState := by
  have rest := returns_modify_bind.mp returns
  cases crypt with
  | none =>
    obtain ⟨_, rfl⟩ := returns_pure.mp rest
    exact ⟨⟨⟨rfl, rfl, rfl, rfl, rfl, rfl, nofun⟩, nofun⟩, rfl, rfl, ⟨rfl, rfl, rfl⟩, rfl⟩
  | some found =>
    obtain ⟨_, w', called, initialised⟩ := returns_bind.mp rest
    rw [returns_modify.mp initialised, tryCall_spec called]
    refine ⟨⟨⟨rfl, rfl, rfl, rfl, rfl, rfl, fun _ => ⟨_, rfl, rfl⟩⟩, ?_⟩, rfl, rfl,
      ⟨rfl, rfl, rfl⟩, rfl⟩
    rintro same ⟨rfl⟩
    rfl

theorem entryCap_spec {pt : Bytes} {crypt : Option FileCrypt} {split : SplitState} :
    ((entryCap pt crypt split).1 ≠ uint64Max → (entryCap pt crypt split).1 < dataSize pt) ∧
      (crypt = none → (entryCap pt crypt split).1 = uint64Max) := by
  cases crypt with
  | none => exact ⟨fun capped => absurd rfl capped, fun _ => rfl⟩
  | some found => exact ⟨writeCap_lt, nofun⟩

theorem afterHeader_spec {pt : Bytes} {crypt : Option FileCrypt} {cap : ℕ} {u : Unit}
    (returns : Returns (afterHeader env pt crypt cap) v u v') :
    v'.input = v.input ∧ SameKeys v v' ∧ v'.splitState = v.splitState ∧
      (0 < dataSize pt ∧ v'.done = v.done ∧
          Started env v.confirmedPassword v' pt crypt cap ∨
        dataSize pt = 0 ∧ v'.inFiledata = v.inFiledata ∧
          v'.done = (v.done || decide (type pt = headEndarc))) := by
  unfold afterHeader at returns
  split at returns
  · rename_i packed
    obtain ⟨started, input, done, keys, split⟩ := beginData_spec returns
    exact ⟨input, keys, split, .inl ⟨packed, done, started⟩⟩
  · have zero : dataSize pt = 0 := by omega
    split at returns
    · rename_i endarc
      rw [returns_modify.mp returns]
      exact ⟨rfl, ⟨rfl, rfl, rfl⟩, rfl, .inr ⟨zero, rfl, by simp [endarc]⟩⟩
    · rename_i other
      obtain ⟨_, rfl⟩ := returns_pure.mp returns
      exact ⟨rfl, ⟨rfl, rfl, rfl⟩, rfl, .inr ⟨zero, rfl, by simp [other]⟩⟩

theorem nextHeaderChunk_spec {chunk : Bytes} (forward : env.cipher.Forward)
    (returns : Returns (nextHeaderChunk env) v chunk v') :
    SameKeys v v' ∧
    ((v.input = [] ∧ chunk = [] ∧ v'.done ∧ v'.splitState = v.splitState) ∨
      ∃ pt crypt cap, HeaderAt env.cipher v.archiveKey v.input pt v'.input ∧
        Rewriting env pt crypt cap ∧ Recorded env pt crypt ∧
        entryCap pt crypt v.splitState = (cap, v'.splitState) ∧ chunk = rewriteHeader pt crypt cap ∧
        (0 < dataSize pt ∧ v'.done = v.done ∧
            Started env v.confirmedPassword v' pt crypt cap ∨
          dataSize pt = 0 ∧ v'.inFiledata = v.inFiledata ∧
            v'.done = (v.done || decide (type pt = headEndarc)))) := by
  have rest := returns_get_bind.mp returns
  split at rest
  · rename_i empty
    have done := returns_modify_bind.mp rest
    obtain ⟨rfl, rfl⟩ := returns_pure.mp done
    exact ⟨⟨rfl, rfl, rfl⟩, .inl ⟨empty, rfl, rfl, rfl⟩⟩
  obtain ⟨⟨pt, crcOk⟩, v₁, read, rest⟩ := returns_bind.mp rest
  obtain ⟨headerAt, credible, crc, same₁⟩ := readAndDecryptHeader_spec forward read
  dsimp only at rest
  split at rest
  · exact absurd rest fail_spec
  rename_i crcPassed
  obtain ⟨crypt, v₂, searched, rest⟩ := returns_bind.mp rest
  obtain ⟨same₂, recorded⟩ := entryCrypt_spec searched
  obtain ⟨capped, plain⟩ := @entryCap_spec pt crypt v.splitState
  obtain ⟨_, v₃, after, done⟩ := returns_bind.mp (returns_modify_bind.mp rest)
  obtain ⟨rfl, rfl⟩ := returns_pure.mp done
  have state := afterHeader_spec after
  rw [same₂] at state
  obtain ⟨input, keys, split, phase⟩ := state
  have before : SameKeys v v₁ := by
    rw [same₁]
    exact ⟨rfl, rfl, rfl⟩
  refine ⟨before.trans ⟨keys.archiveKey, keys.confirmedPassword, keys.wroteSig⟩,
    .inr ⟨pt, crypt, _, ?_, ⟨credible, crc (by simpa using crcPassed), recorded.found, capped,
      plain⟩, recorded, Prod.ext rfl split.symm, rfl, ?_⟩⟩
  · rw [input]
    exact headerAt
  · rw [same₁] at phase
    exact phase

end Calls

def Vol.fed (v : Vol) : ℕ :=
  (v.fileCtx.map fun ctx => ctx.fed.length).getD 0

structure Pending (v : Vol) : Prop where
  plain : v.haveFileCrypt = false →
    v.writeCap = uint64Max ∧ v.emittedThisEntry + v.dataRemaining ≤ uint64Max
  context : v.haveFileCrypt = true → v.fileCtx.isSome = true ∧
    v.emittedThisEntry = min v.writeCap (wholeBlocks v.fed) ∧ (0 < v.dataRemaining → 16 ∣ v.fed)

def Vol.owed (v : Vol) : ℕ :=
  if v.haveFileCrypt then min v.writeCap (v.fed + v.dataRemaining) - v.emittedThisEntry
  else v.dataRemaining

structure Consumed (v v' : Vol) (k : ℕ) : Prop where
  remaining : v'.dataRemaining + k = v.dataRemaining
  enough : k ≤ v.input.length
  input : v'.input = v.input.drop k
  archiveKey : v'.archiveKey = v.archiveKey
  done : v'.done = v.done
  wroteSig : v'.wroteSig = v.wroteSig
  inFiledata : v'.inFiledata = v.inFiledata
  writeCap : v'.writeCap = v.writeCap
  haveFileCrypt : v'.haveFileCrypt = v.haveFileCrypt
  endarcPending : v'.endarcPending = v.endarcPending
  context : v.haveFileCrypt = true → v.fileCtx.isSome = true →
    v'.fileCtx.isSome = true ∧ v'.fed = v.fed + k

theorem Consumed.refl (v : Vol) : Consumed v v 0 :=
  ⟨rfl, zero_le _, rfl, rfl, rfl, rfl, rfl, rfl, rfl, rfl, fun _ has => ⟨has, rfl⟩⟩

theorem Consumed.trans {v v' v'' : Vol} {k k' : ℕ} (first : Consumed v v' k)
    (second : Consumed v' v'' k') : Consumed v v'' (k + k') where
  remaining := by
    have := first.remaining
    have := second.remaining
    omega
  enough := by
    have := first.enough
    have more := second.enough
    rw [first.input, length_drop] at more
    omega
  input := by rw [second.input, first.input, drop_drop]
  archiveKey := second.archiveKey.trans first.archiveKey
  done := second.done.trans first.done
  wroteSig := second.wroteSig.trans first.wroteSig
  inFiledata := second.inFiledata.trans first.inFiledata
  writeCap := second.writeCap.trans first.writeCap
  haveFileCrypt := second.haveFileCrypt.trans first.haveFileCrypt
  endarcPending := second.endarcPending.trans first.endarcPending
  context crypt has := by
    obtain ⟨has', fed⟩ := first.context crypt has
    obtain ⟨has'', fed'⟩ := second.context (first.haveFileCrypt.trans crypt) has'
    exact ⟨has'', by omega⟩

structure Advanced (v v' : Vol) (k : ℕ) : Prop extends Consumed v v' k where
  confirmedPassword : v'.confirmedPassword = v.confirmedPassword
  splitState : v'.splitState = v.splitState
  cipher : ∀ ctx, v.haveFileCrypt = true → v.fileCtx = some ctx →
    v'.fileCtx = some { ctx with fed := ctx.fed ++ v.input.take k }

theorem Advanced.refl (v : Vol) : Advanced v v 0 :=
  ⟨Consumed.refl v, rfl, rfl, fun ctx _ has => by rw [has, take_zero, append_nil]⟩

theorem Advanced.trans {v v' v'' : Vol} {k k' : ℕ} (first : Advanced v v' k)
    (second : Advanced v' v'' k') : Advanced v v'' (k + k') where
  toConsumed := first.toConsumed.trans second.toConsumed
  confirmedPassword := second.confirmedPassword.trans first.confirmedPassword
  splitState := second.splitState.trans first.splitState
  cipher ctx crypt has := by
    rw [second.cipher _ (first.haveFileCrypt.trans crypt) (first.cipher ctx crypt has), first.input,
      append_assoc, ← take_add]

theorem Advanced.sameKeys {v v' : Vol} {k : ℕ} (advanced : Advanced v v' k) : SameKeys v v' :=
  ⟨advanced.archiveKey, advanced.confirmedPassword, advanced.wroteSig⟩

section Data

variable {env : CryptEnv} {v v' : Vol}

/-- The plaintext of the blocks that are complete after `data` was given to the
cipher, without those that were complete before. -/
def Context.update (env : CryptEnv) (ctx : Context) (data : Bytes) : Bytes :=
  (env.cipher.decrypt ctx.key ctx.iv
    ((ctx.fed ++ data).take (wholeBlocks (ctx.fed ++ data).length))).drop
      (wholeBlocks ctx.fed.length)

theorem length_update (ctx : Context) (data : Bytes) : (ctx.update env data).length =
    wholeBlocks (ctx.fed ++ data).length - wholeBlocks ctx.fed.length := by
  have whole : wholeBlocks (ctx.fed ++ data).length ≤ (ctx.fed ++ data).length :=
    div_mul_le_self _ _
  have taken : ((ctx.fed ++ data).take (wholeBlocks (ctx.fed ++ data).length)).length =
      wholeBlocks (ctx.fed ++ data).length := by
    rw [length_take, min_eq_left whole]
  rw [Context.update, length_drop, env.cipher.length_decrypt, taken]
  rw [taken]
  exact Dvd.intro_left _ rfl

theorem decryptUpdate_spec {data out : Bytes}
    (returns : Returns (decryptUpdate env data) v out v') :
    ∃ ctx, v.fileCtx = some ctx ∧ out = ctx.update env data ∧
      v' = { v.advance v.input (v.clock + 1) with
        fileCtx := some { ctx with fed := ctx.fed ++ data } } := by
  obtain ⟨_, v₁, called, rest⟩ := returns_bind.mp returns
  have same := tryCall_spec called
  have rest := returns_get_bind.mp rest
  split at rest
  · exact absurd rest returns_throw
  rename_i ctx has
  obtain ⟨_, v₂, stored, done⟩ := returns_bind.mp rest
  obtain ⟨rfl, rfl⟩ := returns_pure.mp done
  cases stored
  rw [same] at has ⊢
  exact ⟨ctx, has, rfl, rfl⟩

theorem readData_spec {out : Bytes} (pending : Pending v) (left : 0 < v.dataRemaining)
    (returns : Returns (readData env) v out v') :
    ∃ k, 0 < k ∧ Advanced v v' k ∧ v'.emittedThisEntry = v.emittedThisEntry ∧
      (v.haveFileCrypt = false → out = v.input.take k) ∧
      (v.haveFileCrypt → (∀ ctx, v.fileCtx = some ctx →
        out = ctx.update env (v.input.take k)) ∧ (0 < v'.dataRemaining → 16 ∣ v'.fed)) := by
  have rest := returns_get_bind.mp returns
  obtain ⟨data, v₁, read, rest⟩ := returns_bind.mp rest
  obtain ⟨length, input, same⟩ := freadExact_spec read
  have dropped : v₁.input = v.input.drop data.length := by rw [input, drop_left]
  have taken : v.input.take data.length = data := by rw [input, take_left]
  have enough : data.length ≤ v.input.length := by
    rw [input, length_append]
    omega
  refine ⟨data.length, by rw [length]; unfold streamChunk; omega, ?_⟩
  rw [taken]
  rw [← length] at rest
  split at rest
  · rename_i crypt
    obtain ⟨ctx, has, produced, rfl⟩ := decryptUpdate_spec rest
    have has' : v.fileCtx = some ctx := by
      rw [same] at has
      exact has
    have aligned := (pending.context crypt).2.2 left
    have before : v.fed = ctx.fed.length := by rw [fed, has']; rfl
    rw [same]
    refine ⟨⟨⟨?_, enough, dropped, rfl, rfl, rfl, rfl, rfl, rfl, rfl, fun _ _ => ⟨rfl, ?_⟩⟩,
      rfl, rfl, fun other _ present => ?_⟩, rfl, fun plain => absurd crypt (by simp [plain]),
      fun _ => ⟨fun other present => ?_, fun more => ?_⟩⟩
    · change v.dataRemaining - data.length + data.length = v.dataRemaining
      omega
    · rw [before, ← length_append]
      rfl
    · cases has'.symm.trans present
      rw [taken]
    · cases has'.symm.trans present
      exact produced
    change 0 < v.dataRemaining - data.length at more
    change 16 ∣ (ctx.fed ++ data).length
    rw [length_append]
    unfold streamChunk at length
    rw [before] at aligned
    omega
  · rename_i plain
    obtain ⟨rfl, rfl⟩ := returns_pure.mp rest
    rw [same]
    exact ⟨⟨⟨by
      change v.dataRemaining - data.length + data.length = v.dataRemaining
      omega, enough, dropped, rfl, rfl, rfl, rfl, rfl, rfl, rfl,
      fun crypt => absurd crypt plain⟩, rfl, rfl, fun _ crypt => absurd crypt plain⟩, rfl,
      fun _ => rfl, fun crypt => absurd crypt plain⟩

theorem Advanced.length_out {out : Bytes} {k : ℕ} (advanced : Advanced v v' k)
    (pending : Pending v) (crypt : v.haveFileCrypt)
    (produced : ∀ ctx, v.fileCtx = some ctx → out = ctx.update env (v.input.take k)) :
    out.length = wholeBlocks v'.fed - wholeBlocks v.fed := by
  obtain ⟨ctx, has⟩ := Option.isSome_iff_exists.mp (pending.context crypt).1
  have after := advanced.cipher ctx crypt has
  rw [produced ctx has, length_update, fed, fed, has, after]
  rfl

theorem Pending.emit {n k : ℕ} (pending : Pending v) (consumed : Consumed v v' k)
    (emitted : v'.emittedThisEntry = v.emittedThisEntry) (plain : v.haveFileCrypt = false → n = k)
    (crypt : v.haveFileCrypt → n = wholeBlocks v'.fed - wholeBlocks v.fed ∧
      (0 < v'.dataRemaining → 16 ∣ v'.fed)) :
    Pending { v' with emittedThisEntry := v'.emittedThisEntry + v'.room n } := by
  have cap := consumed.writeCap
  constructor
  · intro unencrypted
    have before : v.haveFileCrypt = false := consumed.haveFileCrypt.symm.trans unencrypted
    obtain ⟨uncapped, bound⟩ := pending.plain before
    have length := plain before
    have remaining := consumed.remaining
    have room : v'.room n ≤ n := min_le_left _ _
    exact ⟨cap.trans uncapped, by dsimp only; omega⟩
  · intro encrypted
    have before : v.haveFileCrypt = true := consumed.haveFileCrypt.symm.trans encrypted
    obtain ⟨has, produced, _⟩ := pending.context before
    obtain ⟨length, aligned⟩ := crypt before
    obtain ⟨has', fed⟩ := consumed.context before has
    refine ⟨has', ?_, aligned⟩
    change v'.emittedThisEntry + v'.room n = min v'.writeCap (wholeBlocks v'.fed)
    have grows : wholeBlocks v.fed ≤ wholeBlocks v'.fed := by
      unfold wholeBlocks
      omega
    rw [room, cap, emitted, length, produced]
    split <;> omega

theorem Pending.room_eq {n k : ℕ} (pending : Pending v) (consumed : Consumed v v' k)
    (emitted : v'.emittedThisEntry = v.emittedThisEntry) (plain : v.haveFileCrypt = false)
    (length : n = k) : v'.room n = k := by
  obtain ⟨uncapped, bound⟩ := pending.plain plain
  have remaining := consumed.remaining
  rw [room, consumed.writeCap, uncapped, emitted, length]
  split <;> omega

def Vol.owedData (env : CryptEnv) (v : Vol) : Bytes :=
  match v.haveFileCrypt, v.fileCtx with
  | true, some ctx =>
      ((env.cipher.decrypt ctx.key ctx.iv (ctx.fed ++ v.input.take v.dataRemaining)).take
        v.writeCap).drop v.emittedThisEntry
  | true, none => []
  | false, _ => v.input.take v.dataRemaining

theorem owedData_of_context {ctx : Context} (crypt : v.haveFileCrypt)
    (has : v.fileCtx = some ctx) : v.owedData env =
      ((env.cipher.decrypt ctx.key ctx.iv (ctx.fed ++ v.input.take v.dataRemaining)).take
        v.writeCap).drop v.emittedThisEntry := by
  rw [owedData, crypt, has]

theorem owedData_of_plain (plain : v.haveFileCrypt = false) :
    v.owedData env = v.input.take v.dataRemaining := by
  rw [owedData, plain]

structure Whole (v : Vol) : Prop where
  enough : v.dataRemaining ≤ v.input.length
  blocks : v.haveFileCrypt = true → 16 ∣ v.fed + v.dataRemaining

theorem Advanced.whole_iff {k : ℕ} (advanced : Advanced v v' k) (pending : Pending v) :
    Whole v' ↔ Whole v := by
  have remaining := advanced.remaining
  have read := advanced.enough
  have length : v'.input.length = v.input.length - k := by rw [advanced.input, length_drop]
  have total : v.haveFileCrypt → v'.fed + v'.dataRemaining = v.fed + v.dataRemaining := by
    intro crypt
    obtain ⟨_, fed⟩ := advanced.context crypt (pending.context crypt).1
    omega
  constructor
  · intro whole
    have enough := whole.enough
    refine ⟨by omega, fun crypt => ?_⟩
    rw [← total crypt]
    exact whole.blocks (advanced.haveFileCrypt.trans crypt)
  · intro whole
    have enough := whole.enough
    refine ⟨by omega, fun crypt => ?_⟩
    rw [advanced.haveFileCrypt] at crypt
    rw [total crypt]
    exact whole.blocks crypt

theorem take_append_take_drop (input : Bytes) {k n : ℕ} (le : k ≤ n) :
    input.take k ++ (input.drop k).take (n - k) = input.take n := by
  obtain ⟨m, rfl⟩ := Nat.exists_eq_add_of_le le
  rw [Nat.add_sub_cancel_left, take_add]

theorem update_eq (forward : env.cipher.Forward) {ctx : Context} {data rest : Bytes}
    (blocks : 16 ∣ (ctx.fed ++ (data ++ rest)).length) : ctx.update env data =
      ((env.cipher.decrypt ctx.key ctx.iv (ctx.fed ++ (data ++ rest))).drop
        (wholeBlocks ctx.fed.length)).take
          (wholeBlocks (ctx.fed ++ data).length - wholeBlocks ctx.fed.length) := by
  have whole : wholeBlocks (ctx.fed ++ data).length ≤ (ctx.fed ++ data).length :=
    div_mul_le_self _ _
  have leading : (ctx.fed ++ (data ++ rest)).take (wholeBlocks (ctx.fed ++ data).length) =
      (ctx.fed ++ data).take (wholeBlocks (ctx.fed ++ data).length) := by
    rw [← append_assoc, take_append_of_le_length whole]
  have aligned : 16 ∣ wholeBlocks (ctx.fed ++ data).length := Dvd.intro_left _ rfl
  rw [Context.update, ← leading, ← forward _ _ _ _ blocks aligned, drop_take]

theorem drop_take_eq_append (plain : Bytes) {cap before emitted n room : ℕ}
    (sofar : emitted = min cap before) (fits : room = min n (cap - emitted)) :
    (plain.take cap).drop emitted =
      ((plain.drop before).take n).take room ++ (plain.take cap).drop (emitted + room) := by
  rcases le_total cap before with full | more
  · have none : room = 0 := by omega
    rw [none, take_zero, nil_append, add_zero]
  have start : emitted = before := by omega
  have within : room ≤ cap - before := by omega
  have part : ((plain.drop before).take n).take room =
      ((plain.take cap).drop before).take room := by
    rw [take_take, drop_take, take_take, min_eq_left within,
      min_eq_left (by omega)]
  rw [start, part, ← drop_drop, take_append_drop]

theorem owedData_eq_append {out : Bytes} {k : ℕ} (forward : env.cipher.Forward) (whole : Whole v)
    (pending : Pending v) (advanced : Advanced v v' k)
    (emitted : v'.emittedThisEntry = v.emittedThisEntry)
    (plain : v.haveFileCrypt = false → out = v.input.take k)
    (produced : v.haveFileCrypt → ∀ ctx, v.fileCtx = some ctx →
      out = ctx.update env (v.input.take k)) :
    v.owedData env = out.take (v'.room out.length) ++ owedData env
      { v' with emittedThisEntry := v'.emittedThisEntry + v'.room out.length } := by
  have remaining := advanced.remaining
  have enough := whole.enough
  have rest : v'.dataRemaining = v.dataRemaining - k := by omega
  cases crypt : v.haveFileCrypt with
  | false =>
    have read := plain crypt
    have length : out.length = k := by
      rw [read, length_take]
      omega
    have later := @owedData_of_plain env
      { v' with emittedThisEntry := v'.emittedThisEntry + v'.room out.length }
      (advanced.haveFileCrypt.trans crypt)
    rw [later, owedData_of_plain crypt, pending.room_eq advanced.toConsumed emitted crypt length,
      read, take_take, min_self]
    rw [advanced.input, rest, take_append_take_drop _ (by omega)]
  | true =>
    obtain ⟨has, sofar, _⟩ := pending.context crypt
    obtain ⟨ctx, context⟩ := Option.isSome_iff_exists.mp has
    have fed : v.fed = ctx.fed.length := by rw [fed, context]; rfl
    have later := @owedData_of_context env
      { v' with emittedThisEntry := v'.emittedThisEntry + v'.room out.length } _
      (advanced.haveFileCrypt.trans crypt) (advanced.cipher ctx crypt context)
    have all : ctx.fed ++ (v.input.take k ++ (v.input.drop k).take (v.dataRemaining - k)) =
        ctx.fed ++ v.input.take v.dataRemaining := by
      rw [take_append_take_drop _ (by omega)]
    have blocks : 16 ∣ (ctx.fed ++ v.input.take v.dataRemaining).length := by
      rw [length_append, length_take, min_eq_left enough, ← fed]
      exact whole.blocks crypt
    have read := @update_eq env forward ctx (v.input.take k)
      ((v.input.drop k).take (v.dataRemaining - k)) (by rwa [all])
    have length := @length_update env ctx (v.input.take k)
    rw [← produced crypt ctx context, all] at read
    rw [← produced crypt ctx context] at length
    rw [fed] at sofar
    rw [later, owedData_of_context crypt context]
    rw [advanced.input, rest, append_assoc, all, advanced.writeCap, emitted]
    have piece := drop_take_eq_append
      (env.cipher.decrypt ctx.key ctx.iv (ctx.fed ++ v.input.take v.dataRemaining)) sofar
      (rfl : min out.length (v.writeCap - v.emittedThisEntry) = _)
    have room : v'.room out.length = min out.length (v.writeCap - v.emittedThisEntry) := by
      rw [room, advanced.writeCap, emitted]
      split <;> omega
    rw [← length] at read
    rw [← read] at piece
    rwa [room]

theorem filedataLoop_spec {rounds : ℕ} {result : Option Bytes} (forward : env.cipher.Forward)
    (pending : Pending v) (enough : v.dataRemaining ≤ rounds)
    (returns : Returns (filedataLoop env rounds) v result v') :
    ∃ k, Advanced v v' k ∧ Pending v' ∧
      (v.haveFileCrypt = false → v'.emittedThisEntry = v.emittedThisEntry + k) ∧
      (∀ chunk, result = some chunk → chunk ≠ [] ∧
        v'.emittedThisEntry = v.emittedThisEntry + chunk.length) ∧
      (result = none → v'.dataRemaining = 0 ∧ v'.emittedThisEntry = v.emittedThisEntry) ∧
      (Whole v → v.owedData env = result.getD [] ++ v'.owedData env) := by
  induction rounds generalizing v with
  | zero =>
    obtain ⟨rfl, rfl⟩ := returns_pure.mp returns
    exact ⟨0, Advanced.refl v, pending, fun _ => rfl, nofun, fun _ => ⟨by omega, rfl⟩,
      fun _ => rfl⟩
  | succ rounds ih =>
    have rest := returns_get_bind.mp returns
    split at rest
    · rename_i exhausted
      obtain ⟨rfl, rfl⟩ := returns_pure.mp rest
      exact ⟨0, Advanced.refl v, pending, fun _ => rfl, nofun, fun _ => ⟨exhausted, rfl⟩,
        fun _ => rfl⟩
    · rename_i left
      have positive := pos_of_ne_zero left
      obtain ⟨out, v₁, read, rest⟩ := returns_bind.mp rest
      obtain ⟨k, _, advanced, emitted, plain, crypt⟩ := readData_spec pending positive read
      have length : v.haveFileCrypt = false → out.length = k := by
        intro unencrypted
        rw [plain unencrypted, length_take, min_eq_left advanced.enough]
      have emit := pending.emit advanced.toConsumed emitted length fun encrypted =>
        ⟨advanced.length_out pending encrypted (crypt encrypted).1, (crypt encrypted).2⟩
      have content : Whole v → _ := fun whole => owedData_eq_append forward whole pending advanced
        emitted plain fun encrypted => (crypt encrypted).1
      have rest := returns_get_bind.mp rest
      dsimp only at rest
      split at rest
      · rename_i full
        rw [full] at emit content
        have next : Pending v₁ := emit
        have fewer := advanced.remaining
        obtain ⟨k', later, pending', _, chunks, ends, owed⟩ := ih next (by omega) rest
        refine ⟨k + k', advanced.trans later, pending', fun unencrypted => ?_,
          by rwa [emitted] at chunks, by rwa [emitted] at ends, fun whole => ?_⟩
        · have room := pending.room_eq advanced.toConsumed emitted unencrypted
            (length unencrypted)
          omega
        · rw [content whole, take_zero, nil_append]
          exact owed ((advanced.whole_iff pending).mpr whole)
      · have done := returns_modify_bind.mp rest
        obtain ⟨rfl, rfl⟩ := returns_pure.mp done
        have taken : (out.take (v₁.room out.length)).length = v₁.room out.length := by
          rw [length_take]
          exact min_eq_left (min_le_left _ _)
        refine ⟨k, { advanced with }, emit, fun unencrypted => ?_, ?_, nofun, content⟩
        · rw [← pending.room_eq advanced.toConsumed emitted unencrypted (length unencrypted),
            ← emitted]
        · rintro chunk ⟨rfl⟩
          refine ⟨ne_nil_of_length_pos (by omega), ?_⟩
          rw [taken, emitted]

theorem decryptFinal_spec {tail : Bytes} (returns : Returns (decryptFinal env) v tail v') :
    tail = [] ∧ 16 ∣ v.fed ∧ v' = { v.advance v.input (v.clock + 1) with fileCtx := none } := by
  have rest := returns_get_bind.mp returns
  split at rest
  · exact absurd rest returns_throw
  rename_i ctx has
  obtain ⟨_, v₁, stored, rest⟩ := returns_bind.mp rest
  cases stored
  obtain ⟨_, v₂, called, rest⟩ := returns_bind.mp rest
  have same := tryCall_spec called
  split at rest
  · exact absurd rest fail_spec
  rename_i whole
  obtain ⟨rfl, rfl⟩ := returns_pure.mp rest
  refine ⟨rfl, ?_, same⟩
  rw [fed, has]
  exact dvd_of_mod_eq_zero (not_not.mp whole)

theorem finishData_spec {tail : Bytes} (returns : Returns (finishData env) v tail v') :
    tail = [] ∧ (v.haveFileCrypt = true → 16 ∣ v.fed) ∧ v'.input = v.input ∧ SameKeys v v' ∧
      v'.splitState = v.splitState ∧ v'.done = v.done ∧ v'.inFiledata = v.inFiledata ∧
      v'.endarcPending = v.endarcPending := by
  have rest := returns_get_bind.mp returns
  split at rest
  · obtain ⟨empty, whole, rfl⟩ := decryptFinal_spec rest
    exact ⟨empty, fun _ => whole, rfl, ⟨rfl, rfl, rfl⟩, rfl, rfl, rfl, rfl⟩
  · rename_i unencrypted
    obtain ⟨rfl, rfl⟩ := returns_pure.mp rest
    exact ⟨rfl, fun crypt => absurd crypt unencrypted, rfl, ⟨rfl, rfl, rfl⟩, rfl, rfl, rfl, rfl⟩

theorem Pending.owed_eq {n k : ℕ} (pending : Pending v) (pending' : Pending v')
    (consumed : Consumed v v' k) (emitted : v'.emittedThisEntry = v.emittedThisEntry + n)
    (plain : v.haveFileCrypt = false → n = k) : v.owed = n + v'.owed := by
  have remaining := consumed.remaining
  unfold owed
  rw [consumed.haveFileCrypt]
  split
  · rename_i crypt
    obtain ⟨has, produced, _⟩ := pending.context crypt
    obtain ⟨_, produced', _⟩ := pending'.context (consumed.haveFileCrypt.trans crypt)
    obtain ⟨_, fed⟩ := consumed.context crypt has
    have whole : wholeBlocks v'.fed ≤ v'.fed := div_mul_le_self _ _
    rw [consumed.writeCap] at produced' ⊢
    omega
  · rename_i unencrypted
    have all := plain (by simpa using unencrypted)
    omega

theorem Pending.owed_zero (pending : Pending v) (exhausted : v.dataRemaining = 0)
    (whole : v.haveFileCrypt → 16 ∣ v.fed) : v.owed = 0 := by
  unfold owed
  split
  · rename_i crypt
    have produced := (pending.context crypt).2.1
    have aligned : wholeBlocks v.fed = v.fed := Nat.div_mul_cancel (whole crypt)
    rw [exhausted, produced, aligned]
    exact Nat.sub_self _
  · exact exhausted

theorem nextFiledataChunk_spec {chunk : Bytes} (forward : env.cipher.Forward) (pending : Pending v)
    (returns : Returns (nextFiledataChunk env) v chunk v') :
    (∃ k, Advanced v v' k ∧ Pending v' ∧ chunk ≠ [] ∧ v.owed = chunk.length + v'.owed ∧
      (Whole v → v.owedData env = chunk ++ v'.owedData env)) ∨
      v.owed = 0 ∧ Whole v ∧
        (v.endarcPending ∧ chunk = [] ∧ v'.done ∧ SameKeys v v' ∧
            v'.splitState = v.splitState ∨
          v.endarcPending = false ∧ ∃ w, Returns (nextHeaderChunk env) w chunk v' ∧
            w.input = v.input.drop v.dataRemaining ∧ SameKeys v w ∧
            w.splitState = v.splitState ∧ w.done = v.done ∧ w.inFiledata = false) := by
  have rest := returns_get_bind.mp returns
  obtain ⟨result, v₁, loop, rest⟩ := returns_bind.mp rest
  obtain ⟨k, advanced, pending', plain, chunks, ends, content⟩ :=
    filedataLoop_spec forward pending le_rfl loop
  have remaining := advanced.remaining
  cases result with
  | some piece =>
    obtain ⟨rfl, rfl⟩ := returns_pure.mp rest
    obtain ⟨nonempty, emitted⟩ := chunks piece rfl
    refine .inl ⟨k, advanced, pending', nonempty,
      pending.owed_eq pending' advanced.toConsumed emitted ?_, content⟩
    intro unencrypted
    have all := plain unencrypted
    omega
  | none =>
    obtain ⟨exhausted, emitted⟩ := ends rfl
    have all : k = v.dataRemaining := by omega
    obtain ⟨tail, v₂, final, rest⟩ := returns_bind.mp (returns_modify_bind.mp rest)
    obtain ⟨rfl, whole, input, keys, split, done, outside, endarc⟩ := finishData_spec final
    have same : SameKeys v v₂ :=
      advanced.sameKeys.trans ⟨keys.archiveKey, keys.confirmedPassword, keys.wroteSig⟩
    have owed := @Pending.owed_eq _ _ 0 _ pending pending' advanced.toConsumed emitted
      fun unencrypted => by
        have := plain unencrypted
        omega
    rw [pending'.owed_zero exhausted whole] at owed
    refine .inr ⟨owed, ⟨all ▸ advanced.enough, fun crypt => ?_⟩, ?_⟩
    · rw [← all, ← (advanced.context crypt (pending.context crypt).1).2]
      exact whole (advanced.haveFileCrypt.trans crypt)
    rw [advanced.endarcPending] at endarc
    have rest := returns_get_bind.mp rest
    rw [if_neg (by simp [room])] at rest
    split at rest
    · rename_i last
      have finished := returns_modify_bind.mp rest
      obtain ⟨rfl, rfl⟩ := returns_pure.mp finished
      exact .inl ⟨endarc ▸ last, rfl, rfl,
        ⟨same.archiveKey, same.confirmedPassword, same.wroteSig⟩,
        split.trans advanced.splitState⟩
    · rename_i more
      refine .inr ⟨by simpa [endarc] using more, v₂, rest, ?_, same,
        split.trans advanced.splitState, done.trans advanced.done, outside⟩
      rw [input, advanced.input, all]

end Data

end NzbDownloader.Extract
