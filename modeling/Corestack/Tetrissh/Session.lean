import Mathlib.Algebra.Group.Int.Defs
import Mathlib.Algebra.Group.Nat.Defs
import Mathlib.Data.List.Basic
import Mathlib.Tactic.Common

/-! # Session tokens

`session_encrypt` seals a plaintext in a token and `session_decrypt` opens it. The
lengths are `size_t`, but the cipher is given an `int`: a long plaintext may be cut
to its length modulo 2³² and sealed as if it were whole.
-/

namespace Corestack.Tetrissh

def aesKeyLen : Nat := 16
def aesIvLen : Nat := 16
def aesBlock : Nat := 16
def hmacKeyLen : Nat := 16
def hmacLen : Nat := 32
def sessionKeyLen : Nat := hmacKeyLen + aesKeyLen

/-- An array of a fixed length. -/
structure Bytes (n : Nat) where
  bytes : List UInt8
  length_eq : bytes.length = n

/-- A buffer, whose length is a `size_t`. -/
structure Buffer where
  bytes : List UInt8
  length_lt : bytes.length < 2 ^ 64

/-- AES-128-CBC with PKCS7 padding, and HMAC-SHA256. A text that is not a padded one does not
decrypt. -/
structure Cipher where
  encrypt : List UInt8 → List UInt8 → List UInt8 → List UInt8
  decrypt : List UInt8 → List UInt8 → List UInt8 → Option (List UInt8)
  hmac : List UInt8 → List UInt8 → List UInt8
  decrypt_encrypt : ∀ {key iv} plain, key.length = aesKeyLen → iv.length = aesIvLen →
    decrypt key iv (encrypt key iv plain) = some plain
  length_encrypt : ∀ key iv plain,
    (encrypt key iv plain).length = (plain.length / aesBlock + 1) * aesBlock
  length_hmac : ∀ key data, (hmac key data).length = hmacLen

def intMax : Nat := 2147483647

/-- The conversion of a `size_t` to `int`. -/
def toInt (n : Nat) : Int := Int.bmod n (2 ^ 32)

/-- What a call gives. Nothing is known of one that is `undefined`. -/
inductive Outcome
  | null
  | token (bytes : List UInt8)
  | undefined

/-- The call may return these bytes. -/
def Outcome.MayReturn : Outcome → List UInt8 → Prop
  | null, _ => False
  | token bytes, bytes' => bytes' = bytes
  | undefined, _ => True

/-- The output is IV, ciphertext and HMAC. The random bytes are `iv`, the allocation succeeds. -/
def sessionEncrypt (c : Cipher) (key : Bytes sessionKeyLen) (iv : Bytes aesIvLen)
    (plain : Buffer) : Outcome :=
  let hmacKey := key.bytes.take hmacKeyLen
  let aesKey := key.bytes.drop hmacKeyLen
  let maxCtLen := (plain.bytes.length + aesBlock) % 2 ^ 64
  let maxOut := (aesIvLen + maxCtLen + hmacLen) % 2 ^ 64
  -- the IV does not fit the buffer
  if maxOut < aesIvLen then .undefined
  else
    let plainLen := toInt plain.bytes.length
    if plainLen < 0 then .null
    else
      let ct := c.encrypt aesKey iv.bytes (plain.bytes.take plainLen.toNat)
      -- `ct_len + final_len` is not an `int`
      if ct.length > intMax then .undefined
      else .token (iv.bytes ++ ct ++ c.hmac hmacKey (iv.bytes ++ ct))

/-- `none` is `NULL`. The allocation succeeds. -/
def sessionDecrypt (c : Cipher) (key : Bytes sessionKeyLen) (token : List UInt8) :
    Option (List UInt8) :=
  let hmacKey := key.bytes.take hmacKeyLen
  let aesKey := key.bytes.drop hmacKeyLen
  if token.length < aesIvLen + aesBlock + hmacLen then none
  else
    let ctLen := token.length - aesIvLen - hmacLen
    let iv := token.take aesIvLen
    let ct := (token.drop aesIvLen).take ctLen
    let hmacReceived := (token.drop (aesIvLen + ctLen)).take hmacLen
    if c.hmac hmacKey (token.take (aesIvLen + ctLen)) ≠ hmacReceived then none
    else
      let count := toInt ctLen
      if count < 0 then none
      else c.decrypt aesKey iv (ct.take count.toNat)

variable (c : Cipher) (key : Bytes sessionKeyLen) (iv : Bytes aesIvLen)

/-- The token of a plaintext that is sealed whole. -/
def sealed (plain : List UInt8) : List UInt8 :=
  let ct := c.encrypt (key.bytes.drop hmacKeyLen) iv.bytes plain
  iv.bytes ++ ct ++ c.hmac (key.bytes.take hmacKeyLen) (iv.bytes ++ ct)

/-! ## Lengths -/

theorem toInt_of_lt {n : Nat} (h : n % 2 ^ 32 < 2 ^ 31) : toInt n = (n % 2 ^ 32 : Nat) := by
  unfold toInt
  rw [Int.bmod_def]
  omega

theorem toInt_of_ge {n : Nat} (h : 2 ^ 31 ≤ n % 2 ^ 32) : toInt n < 0 := by
  unfold toInt
  rw [Int.bmod_def]
  omega

/-- The ciphertext of `n` bytes fits an `int` exactly below the last block. -/
theorem length_ct_le_iff {n : Nat} : (n / aesBlock + 1) * aesBlock ≤ intMax ↔ n < 2 ^ 31 - 16 := by
  simp only [aesBlock, intMax]
  omega

/-! ## Opening a token -/

theorem sessionDecrypt_sealed {plain : List UInt8} (h : plain.length < 2 ^ 31 - 16) :
    sessionDecrypt c key (sealed c key iv plain) = some plain := by
  set hmacKey := key.bytes.take hmacKeyLen with hhmacKey
  set aesKey := key.bytes.drop hmacKeyLen with haesKey
  set ct := c.encrypt aesKey iv.bytes plain with hct
  set mac := c.hmac hmacKey (iv.bytes ++ ct)
  have hiv : iv.bytes.length = aesIvLen := iv.length_eq
  have hmac : mac.length = hmacLen := c.length_hmac _ _
  have hkey : aesKey.length = aesKeyLen := by
    rw [haesKey, List.length_drop, key.length_eq]
    rfl
  have hlen : ct.length = (plain.length / aesBlock + 1) * aesBlock := c.length_encrypt _ _ _
  have hmax : ct.length ≤ intMax := by
    rw [hlen]
    exact length_ct_le_iff.mpr h
  have hint : toInt ct.length = (ct.length : Int) := by
    simp only [intMax] at hmax
    rw [toInt_of_lt (by omega), Nat.mod_eq_of_lt (by omega)]
  have htoken : sealed c key iv plain = iv.bytes ++ ct ++ mac := rfl
  have hct' : (sealed c key iv plain).length - aesIvLen - hmacLen = ct.length := by
    rw [htoken, List.length_append, List.length_append, hiv, hmac, Nat.add_assoc,
      Nat.add_sub_cancel_left, Nat.add_sub_cancel]
  have hblock : aesBlock ≤ ct.length := by
    rw [hlen]
    exact Nat.le_mul_of_pos_left _ (Nat.succ_pos _)
  have hshort : ¬ (sealed c key iv plain).length < aesIvLen + aesBlock + hmacLen := by
    rw [htoken, List.length_append, List.length_append, hiv, hmac]
    exact Nat.not_lt.mpr (Nat.add_le_add_right (Nat.add_le_add_left hblock _) _)
  have hivct : (iv.bytes ++ ct).length = aesIvLen + ct.length := by
    rw [List.length_append, hiv]
  unfold sessionDecrypt
  dsimp only
  rw [if_neg hshort, hct', htoken, List.take_left' hivct, List.drop_left' hivct,
    List.take_of_length_le (Nat.le_of_eq hmac), if_neg (not_not.mpr rfl), hint,
    if_neg (Int.not_lt.mpr (Int.natCast_nonneg _)), Int.toNat_natCast, List.append_assoc,
    List.take_left' hiv, List.drop_left' hiv, List.take_left' rfl, List.take_length]
  exact c.decrypt_encrypt plain hkey hiv

/-- A token that opens is an IV, a ciphertext of at least a block and their HMAC. -/
theorem sessionDecrypt_some {token plain : List UInt8}
    (h : sessionDecrypt c key token = some plain) :
    ∃ iv ct, token = iv ++ ct ++ c.hmac (key.bytes.take hmacKeyLen) (iv ++ ct) ∧
      iv.length = aesIvLen ∧ aesBlock ≤ ct.length := by
  unfold sessionDecrypt at h
  dsimp only at h
  split_ifs at h with hlen hmac hcount
  set ctLen := token.length - aesIvLen - hmacLen with hctLen
  have htotal : aesIvLen + ctLen + hmacLen = token.length := by omega
  have hblock : aesBlock ≤ ctLen := by omega
  have hsplit : token.take (aesIvLen + ctLen) =
      token.take aesIvLen ++ (token.drop aesIvLen).take ctLen := List.take_add
  have hrest : (token.drop (aesIvLen + ctLen)).take hmacLen = token.drop (aesIvLen + ctLen) := by
    apply List.take_of_length_le
    rw [List.length_drop]
    omega
  refine ⟨token.take aesIvLen, (token.drop aesIvLen).take ctLen, ?_, ?_, ?_⟩
  · rw [← hsplit, not_not.mp hmac, hrest, List.take_append_drop]
  · rw [List.length_take]
    omega
  · rw [List.length_take, List.length_drop]
    omega

/-! ## Round trips -/

/-- Whatever token comes out opens to the whole plaintext. -/
def RoundTrips (plain : Buffer) : Prop :=
  ∀ token, (sessionEncrypt c key iv plain).MayReturn token →
    sessionDecrypt c key token = some plain.bytes

/-- The lengths that `session_encrypt` seals whole or refuses. -/
def Whole (n : Nat) : Prop :=
  n < 2 ^ 31 - 16 ∨ 2 ^ 31 ≤ n % 2 ^ 32 ∧ 16 ≤ (n + 64) % 2 ^ 64

/-- A call of which nothing is known may give an empty token. -/
theorem not_roundTrips_of_undefined {plain : Buffer}
    (h : sessionEncrypt c key iv plain = .undefined) : ¬ RoundTrips c key iv plain := by
  intro hr
  have hnil := hr [] (by rw [h]; trivial)
  cases hnil

/-- The buffer is too small for the IV. -/
theorem sessionEncrypt_of_small {plain : Buffer} (h : (plain.bytes.length + 64) % 2 ^ 64 < 16) :
    sessionEncrypt c key iv plain = .undefined := by
  unfold sessionEncrypt
  dsimp only
  rw [if_pos]
  simp only [aesIvLen, aesBlock, hmacLen]
  omega

theorem sessionEncrypt_of_neg {plain : Buffer} (h : 2 ^ 31 ≤ plain.bytes.length % 2 ^ 32)
    (hs : 16 ≤ (plain.bytes.length + 64) % 2 ^ 64) : sessionEncrypt c key iv plain = .null := by
  unfold sessionEncrypt
  dsimp only
  rw [if_neg, if_pos (toInt_of_ge h)]
  simp only [aesIvLen, aesBlock, hmacLen]
  omega

/-- A length that is an `int` is cut to that `int`. -/
theorem sessionEncrypt_of_nonneg {plain : Buffer} (h : plain.bytes.length % 2 ^ 32 < 2 ^ 31) :
    sessionEncrypt c key iv plain =
      if plain.bytes.length % 2 ^ 32 < 2 ^ 31 - 16 then
        .token (sealed c key iv (plain.bytes.take (plain.bytes.length % 2 ^ 32)))
      else .undefined := by
  have hlt := plain.length_lt
  have hcut : (plain.bytes.take (plain.bytes.length % 2 ^ 32)).length =
      plain.bytes.length % 2 ^ 32 := by
    rw [List.length_take]
    exact Nat.min_eq_left (Nat.mod_le _ _)
  unfold sessionEncrypt
  dsimp only
  rw [if_neg (by simp only [aesIvLen, aesBlock, hmacLen]; omega), toInt_of_lt h,
    if_neg (Int.not_lt.mpr (Int.natCast_nonneg _)), Int.toNat_natCast, c.length_encrypt, hcut]
  by_cases hmax : plain.bytes.length % 2 ^ 32 < 2 ^ 31 - 16
  · rw [if_neg (Nat.not_lt.mpr (length_ct_le_iff.mpr hmax)), if_pos hmax]
    rfl
  · rw [if_pos (Nat.not_le.mp fun hle => hmax (length_ct_le_iff.mp hle)), if_neg hmax]

theorem roundTrips_iff (plain : Buffer) :
    RoundTrips c key iv plain ↔ Whole plain.bytes.length := by
  have hlt := plain.length_lt
  set n := plain.bytes.length with hn
  rcases Nat.lt_or_ge (n % 2 ^ 32) (2 ^ 31) with hint | hint
  · have henc := sessionEncrypt_of_nonneg c key iv hint
    rcases Nat.lt_or_ge (n % 2 ^ 32) (2 ^ 31 - 16) with hmax | hmax
    · rw [← hn, if_pos hmax] at henc
      have hcut : (plain.bytes.take (n % 2 ^ 32)).length = n % 2 ^ 32 := by
        rw [List.length_take]
        exact Nat.min_eq_left (Nat.mod_le _ _)
      have hopen := sessionDecrypt_sealed c key iv (hcut ▸ hmax)
      constructor
      · intro hr
        have hsome := hopen.symm.trans (hr _ (by rw [henc]; rfl))
        have hlen := congrArg List.length (Option.some.inj hsome)
        rw [hcut] at hlen
        left
        omega
      · intro hw
        have hwhole : n % 2 ^ 32 = n := by
          rcases hw with h | ⟨h, -⟩ <;> omega
        intro token ht
        rw [henc] at ht
        obtain rfl := ht
        rw [hopen, hwhole, hn, List.take_length]
    · rw [← hn, if_neg (Nat.not_lt.mpr hmax)] at henc
      refine iff_of_false (not_roundTrips_of_undefined c key iv henc) ?_
      rintro (h | ⟨h, -⟩) <;> omega
  · rcases Nat.lt_or_ge ((n + 64) % 2 ^ 64) 16 with hs | hs
    · have hund := not_roundTrips_of_undefined c key iv (sessionEncrypt_of_small c key iv hs)
      refine iff_of_false hund ?_
      rintro (h | ⟨-, h⟩) <;> omega
    · refine iff_of_true ?_ (Or.inr ⟨hint, hs⟩)
      intro token ht
      rw [sessionEncrypt_of_neg c key iv hint hs] at ht
      cases ht

/-- Tokens round-trip exactly for the lengths that are sealed whole or refused, and only tokens
with a valid HMAC over an IV and at least one block open. -/
theorem session_tokens_iff :
    (∀ plain : Buffer, RoundTrips c key iv plain ↔ Whole plain.bytes.length) ∧
      ∀ token plain, sessionDecrypt c key token = some plain → ∃ iv ct,
        token = iv ++ ct ++ c.hmac (key.bytes.take hmacKeyLen) (iv ++ ct) ∧
          iv.length = aesIvLen ∧ aesBlock ≤ ct.length :=
  ⟨roundTrips_iff c key iv, fun _ _ h => sessionDecrypt_some c key h⟩

/-- The padding of a text: `n` bytes with the value `n`, up to the next block. -/
def padding (plain : List UInt8) : List UInt8 :=
  List.replicate (aesBlock - plain.length % aesBlock)
    (.ofNat (aesBlock - plain.length % aesBlock))

/-- A cipher that only pads. -/
def paddingOnly : Cipher where
  encrypt _ _ plain := plain ++ padding plain
  decrypt _ _ ct := ct.getLast?.map fun p => ct.take (ct.length - p.toNat)
  hmac _ _ := List.replicate hmacLen 0
  decrypt_encrypt plain _ _ := by
    have hmod := Nat.mod_lt plain.length (by decide : aesBlock > 0)
    have hpos : aesBlock - plain.length % aesBlock ≠ 0 := by omega
    have hbyte : (UInt8.ofNat (aesBlock - plain.length % aesBlock)).toNat =
        aesBlock - plain.length % aesBlock := by
      apply UInt8.toNat_ofNat_of_lt'
      exact Nat.lt_of_le_of_lt (Nat.sub_le _ _) (by decide)
    simp [padding, List.getLast?_append, List.getLast?_replicate, hpos, hbyte]
  length_encrypt _ _ plain := by
    rw [padding, List.length_append, List.length_replicate]
    simp only [aesBlock]
    omega
  length_hmac _ _ := List.length_replicate

/-- A plaintext of 2³² zeros is sealed as if it were empty. -/
theorem long_plaintext_cut :
    ¬ ∀ (c : Cipher) (key : Bytes sessionKeyLen) (iv : Bytes aesIvLen) (plain : Buffer),
      RoundTrips c key iv plain := by
  intro h
  have hlen : (List.replicate (2 ^ 32) (0 : UInt8)).length = 2 ^ 32 := List.length_replicate
  have hr := h paddingOnly ⟨List.replicate sessionKeyLen 0, List.length_replicate⟩
    ⟨List.replicate aesIvLen 0, List.length_replicate⟩
    ⟨List.replicate (2 ^ 32) 0, by rw [hlen]; decide⟩
  rw [roundTrips_iff] at hr
  dsimp only at hr
  rw [hlen] at hr
  revert hr
  unfold Whole
  decide

end Corestack.Tetrissh
