import Corestack.Tetrissh.Session

/-! # Files in RSA blocks

`encrypt_file` cuts a file into chunks and makes a block of each, `decrypt_file`
opens the blocks one after the other. Both fill a buffer whose size they have
worked out before.
-/

namespace Corestack.Tetrissh

def rsaKeyBytes : Nat := 128
def rsaOaepChunk : Nat := 62
def rsaPkcs1Chunk : Nat := 117

/-- The most that a block holds. -/
def blockLimit (useOaep : Bool) : Nat := if useOaep then rsaOaepChunk else rsaPkcs1Chunk

/-- `rsa_encrypt_block` and `rsa_decrypt_block` with the two halves of one key. The paddings are
random: the number picks the random bytes. -/
structure Rsa where
  encryptBlock : Bool → Nat → List UInt8 → Option (List UInt8)
  decryptBlock : Bool → List UInt8 → Option (List UInt8)
  isSome_encryptBlock : ∀ {useOaep} seed {plain}, plain.length ≤ blockLimit useOaep →
    (encryptBlock useOaep seed plain).isSome
  length_encryptBlock : ∀ {useOaep seed plain block},
    encryptBlock useOaep seed plain = some block → block.length = rsaKeyBytes
  decryptBlock_encryptBlock : ∀ {useOaep seed plain block},
    encryptBlock useOaep seed plain = some block → decryptBlock useOaep block = some plain
  length_decryptBlock : ∀ {useOaep block plain},
    decryptBlock useOaep block = some plain → plain.length ≤ rsaKeyBytes

/-- A key that hides nothing: a block is the length of its text, the text and zeros. -/
def Rsa.clear : Rsa where
  encryptBlock _ _ plain :=
    if plain.length < rsaKeyBytes then
      some (.ofNat plain.length :: (plain ++ List.replicate (rsaKeyBytes - 1 - plain.length) 0))
    else none
  decryptBlock _ block :=
    match block with
    | [] => none
    | n :: rest => some ((rest.take n.toNat).take rsaKeyBytes)
  isSome_encryptBlock {useOaep} _ plain h := by
    have hlimit : blockLimit useOaep < rsaKeyBytes := by cases useOaep <;> decide
    rw [if_pos (Nat.lt_of_le_of_lt h hlimit)]
    rfl
  length_encryptBlock {_ _ plain block} h := by
    split_ifs at h with hlt
    obtain rfl := Option.some.inj h
    simp only [List.length_cons, List.length_append, List.length_replicate]
    omega
  decryptBlock_encryptBlock {_ _ plain block} h := by
    split_ifs at h with hlt
    obtain rfl := Option.some.inj h
    have hbyte : (UInt8.ofNat plain.length).toNat = plain.length :=
      UInt8.toNat_ofNat_of_lt' (Nat.lt_trans hlt (by decide))
    dsimp only
    rw [hbyte, List.take_left' rfl, List.take_of_length_le (Nat.le_of_lt hlt)]
  length_decryptBlock {_ block plain} h := by
    cases block with
    | nil => cases h
    | cons n rest =>
      obtain rfl := Option.some.inj h
      exact List.length_take_le _ _

/-- The loop of `encrypt_file`: `enc` stands in `enc_data[0..enc_offset)`, and the buffer has room
for `room` bytes. -/
def encryptFrom (r : Rsa) (useOaep : Bool) (seed : Nat → Nat) (original : List UInt8) (room : Nat)
    (plainOffset : Nat) (enc : List UInt8) : Outcome :=
  if plainOffset < original.length then
    let remainder := original.length - plainOffset
    let currentChunk := if remainder < blockLimit useOaep then remainder else blockLimit useOaep
    match r.encryptBlock useOaep (seed plainOffset)
        ((original.drop plainOffset).take currentChunk) with
    | none => .null
    | some encBlock =>
      -- `memcpy` writes behind the buffer
      if room < enc.length + encBlock.length then .undefined
      else encryptFrom r useOaep seed original room (plainOffset + currentChunk) (enc ++ encBlock)
  else .token enc
termination_by original.length - plainOffset
decreasing_by
  have : 0 < blockLimit useOaep := by unfold blockLimit; split <;> decide
  split <;> omega

/-- The sizes are `size_t`. The allocation succeeds. -/
def encryptFile (r : Rsa) (useOaep : Bool) (seed : Nat → Nat) (original : Buffer) : Outcome :=
  let blocks := (original.bytes.length + blockLimit useOaep - 1) % 2 ^ 64 / blockLimit useOaep
  encryptFrom r useOaep seed original.bytes (blocks * rsaKeyBytes % 2 ^ 64) 0 []

/-- The loop of `decrypt_file`: `dec` stands in `dec_data[0..dec_offset)`, which has room for as
many bytes as were encrypted. -/
def decryptFrom (r : Rsa) (useOaep : Bool) (encryptedData : List UInt8) (encOff : Nat)
    (dec : List UInt8) : Outcome :=
  if encOff < encryptedData.length then
    -- the block is read behind the data
    if encryptedData.length < encOff + rsaKeyBytes then .undefined
    else
      match r.decryptBlock useOaep ((encryptedData.drop encOff).take rsaKeyBytes) with
      | none => .null
      | some decBlock =>
        if encryptedData.length < dec.length + decBlock.length then .undefined
        else decryptFrom r useOaep encryptedData (encOff + rsaKeyBytes) (dec ++ decBlock)
  else .token dec
termination_by encryptedData.length - encOff
decreasing_by
  have : 0 < rsaKeyBytes := by decide
  omega

/-- The allocation succeeds. -/
def decryptFile (r : Rsa) (useOaep : Bool) (encryptedData : List UInt8) : Outcome :=
  decryptFrom r useOaep encryptedData 0 []

variable {r : Rsa} {useOaep : Bool}

theorem blockLimit_pos (useOaep : Bool) : 0 < blockLimit useOaep := by
  cases useOaep <;> decide

/-! ## Opening blocks -/

/-- The texts of blocks, if all of them open. -/
def openBlocks (r : Rsa) (useOaep : Bool) (blocks : List (List UInt8)) :
    Option (List (List UInt8)) :=
  blocks.mapM (r.decryptBlock useOaep)

/-- What is left of the loop once it has come to `part`. -/
def lastPart (part dec : List UInt8) : Outcome := if part = [] then .token dec else .undefined

theorem openBlocks_nil : openBlocks r useOaep [] = some [] := rfl

theorem openBlocks_cons (b : List UInt8) (blocks : List (List UInt8)) :
    openBlocks r useOaep (b :: blocks) =
      (r.decryptBlock useOaep b).bind fun t => (openBlocks r useOaep blocks).map (t :: ·) := by
  simp only [openBlocks, List.mapM_cons, Option.bind_eq_bind, Option.pure_def]
  cases r.decryptBlock useOaep b with
  | none => rfl
  | some t => cases List.mapM (r.decryptBlock useOaep) blocks <;> rfl

theorem decryptFrom_lastPart {pre part dec : List UInt8} (hpart : part.length < rsaKeyBytes) :
    decryptFrom r useOaep (pre ++ part) pre.length dec = lastPart part dec := by
  unfold decryptFrom lastPart
  cases part with
  | nil => simp
  | cons b part =>
    rw [List.length_append, if_pos (by simp), if_pos (by omega), if_neg (List.cons_ne_nil _ _)]

theorem decryptFrom_block {pre block rest dec : List UInt8} (hb : block.length = rsaKeyBytes)
    (hdec : dec.length ≤ pre.length) :
    decryptFrom r useOaep (pre ++ (block ++ rest)) pre.length dec =
      match r.decryptBlock useOaep block with
      | none => .null
      | some text =>
        decryptFrom r useOaep (pre ++ (block ++ rest)) (pre.length + rsaKeyBytes)
          (dec ++ text) := by
  have hlen : (pre ++ (block ++ rest)).length = pre.length + (rsaKeyBytes + rest.length) := by
    rw [List.length_append, List.length_append, hb]
  have hpos : 0 < rsaKeyBytes := by decide
  rw [decryptFrom, if_pos (by omega), if_neg (by omega), List.drop_left, ← hb, List.take_left]
  cases ht : r.decryptBlock useOaep block with
  | none => rfl
  | some text =>
    have := r.length_decryptBlock ht
    dsimp only
    rw [if_neg (by omega)]

/-- The loop opens the blocks that are there, and reads on if a part of a block is left. -/
theorem decryptFrom_blocks (pre dec : List UInt8) {part : List UInt8} {blocks : List (List UInt8)}
    (hb : ∀ b ∈ blocks, b.length = rsaKeyBytes) (hpart : part.length < rsaKeyBytes)
    (hdec : dec.length ≤ pre.length) :
    decryptFrom r useOaep (pre ++ (blocks.flatten ++ part)) pre.length dec =
      match openBlocks r useOaep blocks with
      | none => .null
      | some texts => lastPart part (dec ++ texts.flatten) := by
  induction blocks generalizing pre dec with
  | nil =>
    rw [List.flatten_nil, List.nil_append, decryptFrom_lastPart hpart, openBlocks_nil]
    simp
  | cons b blocks ih =>
    have hlen := hb b List.mem_cons_self
    rw [List.flatten_cons, List.append_assoc, decryptFrom_block hlen hdec, openBlocks_cons]
    cases ht : r.decryptBlock useOaep b with
    | none => rfl
    | some text =>
      have hle := r.length_decryptBlock ht
      have hnext := ih (pre ++ b) (dec ++ text)
        (fun b' hb' => hb b' (List.mem_cons_of_mem _ hb'))
        (by rw [List.length_append, List.length_append, hlen]; omega)
      rw [List.append_assoc, List.length_append, hlen] at hnext
      dsimp only [Option.bind_some]
      rw [hnext]
      cases openBlocks r useOaep blocks with
      | none => rfl
      | some texts => simp

theorem decryptFile_blocks (r : Rsa) (useOaep : Bool) {part : List UInt8}
    {blocks : List (List UInt8)}
    (hb : ∀ b ∈ blocks, b.length = rsaKeyBytes) (hpart : part.length < rsaKeyBytes) :
    decryptFile r useOaep (blocks.flatten ++ part) =
      match openBlocks r useOaep blocks with
      | none => .null
      | some texts => lastPart part texts.flatten :=
  decryptFrom_blocks [] [] hb hpart (Nat.le_refl _)

/-- The blocks of a file fit a buffer. -/
def BlocksFit (useOaep : Bool) (n : Nat) : Prop :=
  (n + blockLimit useOaep - 1) / blockLimit useOaep * rsaKeyBytes < 2 ^ 64

theorem BlocksFit.add_lt {n : Nat} (h : BlocksFit useOaep n) :
    n + blockLimit useOaep - 1 < 2 ^ 64 := by
  unfold BlocksFit at h
  cases useOaep <;> simp only [blockLimit, rsaKeyBytes, rsaOaepChunk, rsaPkcs1Chunk] at h ⊢ <;>
    simp at h ⊢ <;> omega

/-- A chunk further, one block less is left. -/
theorem blocks_left {k m : Nat} (hk : 0 < k) (hm : 0 < m) :
    (m + k - 1) / k = (m - (if m < k then m else k) + k - 1) / k + 1 := by
  split_ifs with h
  · rw [Nat.sub_self, Nat.zero_add, Nat.div_eq_of_lt (Nat.sub_lt hk Nat.one_pos),
      show m + k - 1 = m - 1 + k by omega, Nat.add_div_right _ hk, Nat.div_eq_of_lt (by omega)]
  · rw [show m + k - 1 = m - k + k - 1 + k by omega, Nat.add_div_right _ hk]

/-- The loop makes blocks that open to the rest of the file, unless the buffer is too small for
them. -/
theorem encryptFrom_eq (r : Rsa) (useOaep : Bool) (seed : Nat → Nat) (original : List UInt8)
    (room plainOffset : Nat) (enc : List UInt8) :
    let left := (original.length - plainOffset + blockLimit useOaep - 1) / blockLimit useOaep
    ∃ blocks texts, blocks.length = left ∧ (∀ b ∈ blocks, b.length = rsaKeyBytes) ∧
      openBlocks r useOaep blocks = some texts ∧ texts.flatten = original.drop plainOffset ∧
      encryptFrom r useOaep seed original room plainOffset enc =
        if left ≠ 0 ∧ room < enc.length + left * rsaKeyBytes then .undefined
        else .token (enc ++ blocks.flatten) := by
  have hk := blockLimit_pos useOaep
  induction h : original.length - plainOffset using Nat.strongRecOn
    generalizing plainOffset enc with
  | ind n ih =>
    intro left
    rcases Nat.eq_zero_or_pos n with rfl | hpos
    · have hleft : left = 0 := Nat.div_eq_of_lt (by omega)
      refine ⟨[], [], hleft.symm, by simp, rfl, ?_, ?_⟩
      · rw [List.drop_of_length_le (by omega)]
        rfl
      · rw [encryptFrom, if_neg (by omega), if_neg (by simp [hleft])]
        simp
    · set currentChunk := if n < blockLimit useOaep then n else blockLimit useOaep with hcur
      set chunk := (original.drop plainOffset).take currentChunk with hchunk
      have hle : chunk.length ≤ blockLimit useOaep := by
        rw [hchunk, List.length_take, hcur]
        split_ifs <;> omega
      obtain ⟨block, hblock⟩ := Option.isSome_iff_exists.mp
        (r.isSome_encryptBlock (seed plainOffset) hle)
      have hlen := r.length_encryptBlock hblock
      have hopen := r.decryptBlock_encryptBlock hblock
      have hlt : original.length - (plainOffset + currentChunk) < n := by
        rw [hcur]
        split_ifs <;> omega
      obtain ⟨blocks, texts, hcount, hb, hopens, htexts, hrest⟩ :=
        ih _ hlt (plainOffset + currentChunk) (enc ++ block) rfl
      have hn : original.length - (plainOffset + currentChunk) = n - currentChunk := by omega
      rw [hn] at hcount hrest
      have hleft : left = (n - currentChunk + blockLimit useOaep - 1) / blockLimit useOaep + 1 :=
        blocks_left hk hpos
      refine ⟨block :: blocks, chunk :: texts, ?_, ?_, ?_, ?_, ?_⟩
      · rw [List.length_cons, hcount, hleft]
      · rintro b (_ | ⟨_, hmem⟩)
        · exact hlen
        · exact hb b hmem
      · rw [openBlocks_cons, hopen, hopens]
        rfl
      · rw [List.flatten_cons, htexts, hchunk, ← List.drop_drop, List.take_append_drop]
      · rw [encryptFrom, if_pos (by omega), h]
        dsimp only
        rw [← hcur, ← hchunk, hblock]
        dsimp only
        rw [hrest, hleft, List.length_append, hlen, List.flatten_cons, List.append_assoc]
        set left' := (n - currentChunk + blockLimit useOaep - 1) / blockLimit useOaep
        rw [Nat.add_mul, Nat.one_mul]
        by_cases hroom : room < enc.length + rsaKeyBytes
        · rw [if_pos hroom, if_pos ⟨by omega, by omega⟩]
        · rw [if_neg hroom]
          congr 1
          rcases Nat.eq_zero_or_pos left' with h0 | h0
          · simp only [h0, ne_eq, not_true_eq_false, false_and, Nat.zero_mul, eq_iff_iff, false_iff]
            omega
          · simp only [ne_eq, eq_iff_iff]
            constructor
            · rintro ⟨-, hlt⟩
              exact ⟨by omega, by omega⟩
            · rintro ⟨-, hlt⟩
              exact ⟨by omega, by omega⟩

/-! ## Files -/

theorem encryptFile_eq (r : Rsa) (useOaep : Bool) (seed : Nat → Nat) (original : Buffer) :
    let blocks := (original.bytes.length + blockLimit useOaep - 1) / blockLimit useOaep
    ∃ data, data.length = blocks * rsaKeyBytes ∧
      decryptFile r useOaep data = .token original.bytes ∧
      encryptFile r useOaep seed original =
        if blocks ≠ 0 ∧ (original.bytes.length + blockLimit useOaep - 1) % 2 ^ 64 /
          blockLimit useOaep * rsaKeyBytes % 2 ^ 64 < blocks * rsaKeyBytes then .undefined
        else .token data := by
  intro count
  obtain ⟨blocks, texts, hcount, hb, hopen, htexts, heq⟩ :=
    encryptFrom_eq r useOaep seed original.bytes ((original.bytes.length + blockLimit useOaep - 1) %
      2 ^ 64 / blockLimit useOaep * rsaKeyBytes % 2 ^ 64) 0 []
  rw [Nat.sub_zero] at hcount heq
  refine ⟨blocks.flatten, ?_, ?_, ?_⟩
  · have hlens : blocks.map List.length = List.replicate count rsaKeyBytes := by
      rw [List.eq_replicate_iff, List.length_map]
      refine ⟨hcount, fun n hn => ?_⟩
      obtain ⟨b, hmem, rfl⟩ := List.mem_map.mp hn
      exact hb b hmem
    rw [List.length_flatten, hlens, List.sum_replicate_nat]
  · have hwhole := decryptFile_blocks r useOaep hb (show [].length < rsaKeyBytes by decide)
    rw [List.append_nil, hopen] at hwhole
    rw [hwhole]
    dsimp only
    rw [htexts]
    rfl
  · rw [List.length_nil, Nat.zero_add, List.nil_append] at heq
    exact heq

/-- A file whose blocks fit a buffer comes back whole from exactly that many blocks, under either
padding and whatever random bytes it draws. For any longer file the buffer is made too small. -/
theorem encryptFile_round_trip (r : Rsa) (useOaep : Bool) (seed : Nat → Nat) (original : Buffer) :
    (BlocksFit useOaep original.bytes.length →
      ∃ data, encryptFile r useOaep seed original = .token data ∧
        data.length = (original.bytes.length + blockLimit useOaep - 1) / blockLimit useOaep *
          rsaKeyBytes ∧
        decryptFile r useOaep data = .token original.bytes) ∧
      (¬ BlocksFit useOaep original.bytes.length →
        encryptFile r useOaep seed original = .undefined) := by
  obtain ⟨data, hlen, hback, heq⟩ := encryptFile_eq r useOaep seed original
  have hn := original.length_lt
  constructor
  · intro hfit
    refine ⟨data, ?_, hlen, hback⟩
    rw [heq, if_neg]
    rintro ⟨-, hlt⟩
    rw [Nat.mod_eq_of_lt hfit.add_lt, Nat.mod_eq_of_lt hfit] at hlt
    exact Nat.lt_irrefl _ hlt
  · intro hfit
    rw [heq, if_pos]
    have hge : 2 ^ 64 ≤ (original.bytes.length + blockLimit useOaep - 1) / blockLimit useOaep *
        rsaKeyBytes := Nat.not_lt.mp hfit
    constructor
    · intro h0
      rw [h0] at hge
      omega
    · exact Nat.lt_of_lt_of_le (Nat.mod_lt _ (by decide)) hge

end Corestack.Tetrissh
