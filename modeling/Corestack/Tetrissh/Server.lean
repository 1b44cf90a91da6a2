import Mathlib.Data.List.TakeWhile
import Mathlib.Logic.Function.Basic
import Corestack.Tetrissh.Blocks
import Corestack.Tetrissh.Framing

/-! # The file server

The server takes messages off its connection until the client closes it. It trusts
what it reads: a message that breaks off, or a file name that is too long, makes it
read or write outside its memory.
-/

namespace Corestack.Tetrissh

open Socket

def msgFilename : UInt64 := 0
def msgFileData : UInt64 := 1
def msgClose : UInt64 := 2
def msgAuth : UInt64 := 3
def msgSymkey : UInt64 := 4

/-- The size of `filename` and `outpath`. -/
def pathSize : Nat := 4096

/-- What the server has on its disk, and the functions of OpenSSL that it calls with it. A
signature draws random bytes, which the number picks. -/
structure ServerSetup where
  rsa : Rsa
  cipher : Cipher
  sign : Nat → List UInt8 → Option (List UInt8)
  length_sign : ∀ {seed msg sig}, sign seed msg = some sig → sig.length = rsaKeyBytes
  /-- `auth/private_key.pem` can be loaded. -/
  hasKey : Bool
  /-- `auth/server_signed.crt` -/
  cert : Option Buffer
  /-- The paths that can be opened for writing. -/
  opens : List UInt8 → Bool

/-- `session_key` is `none` as long as `session_key_flag` is `0`. The files are those of the disk,
and `signed` counts the signatures. -/
structure Server where
  filename : Bytes pathSize
  sessionKey : Option (Bytes sessionKeyLen)
  signed : Nat
  files : List UInt8 → Option (List UInt8)

/-- A server with a key and a cipher that hide nothing. -/
def ServerSetup.clear : ServerSetup where
  rsa := .clear
  cipher := paddingOnly
  sign _ _ := some (List.replicate rsaKeyBytes 0)
  length_sign h := by
    obtain rfl := Option.some.inj h
    exact List.length_replicate
  hasKey := true
  cert := some ⟨[], by decide⟩
  opens _ := true

/-- A server before its first message, and nothing on its disk. -/
def Server.blank : Server where
  filename := ⟨List.replicate pathSize 0, List.length_replicate⟩
  sessionKey := none
  signed := 0
  files _ := none

/-- What becomes of the loop after one message. -/
inductive Verdict
  | goOn (st : Server) (w : Writer UInt8)
  | done (st : Server) (w : Writer UInt8)
  | undefined

/-! ## Strings in buffers -/

/-- `memset` and `memcpy` of at most `n` bytes. -/
def fill (n : Nat) (bytes : List UInt8) (h : bytes.length ≤ n) : Bytes n where
  bytes := bytes ++ List.replicate (n - bytes.length) 0
  length_eq := by
    rw [List.length_append, List.length_replicate]
    omega

/-- The string in a buffer. Without a terminator it is read on behind the buffer. -/
def cString (buf : List UInt8) : Option (List UInt8) :=
  if 0 ∈ buf then some (buf.takeWhile (· ≠ 0)) else none

/-- A string that fits its buffer with a terminator is read back. -/
theorem cString_fill {n : Nat} {name : List UInt8} (hz : 0 ∉ name) (h : name.length < n) :
    cString (fill n name (Nat.le_of_lt h)).bytes = some name := by
  have hroom : n - name.length ≠ 0 := by omega
  have hne : ∀ b ∈ name, decide (b ≠ 0) = true := by
    intro b hb
    refine decide_eq_true ?_
    rintro rfl
    exact hz hb
  rw [cString, fill, if_pos]
  · rw [List.takeWhile_append_of_pos hne]
    simp
  · simp [hroom]

def slash : UInt8 := 47

/-- What stands behind the last slash, found by `strrchr`. -/
def baseName (path : List UInt8) : List UInt8 := (path.reverse.takeWhile (· ≠ slash)).reverse

def recvPrefix : List UInt8 := "recv_files/recv_".toList.map Char.toUInt8

/-- `snprintf` into `outpath`. -/
def outPath (filename : List UInt8) : List UInt8 :=
  (recvPrefix ++ baseName filename).take (pathSize - 1)

/-! ## One message -/

namespace Server

variable (d : ServerSetup) (st : Server) (w : Writer UInt8)

/-- `MSG_FILENAME`, once the bytes of the name are read. -/
def storeFilename (fnBuf : List UInt8) : Verdict :=
  if h : fnBuf.length ≤ pathSize then .goOn { st with filename := fill pathSize fnBuf h } w
  -- `memcpy` writes behind `filename`
  else .undefined

/-- The decryption of a file: with the session key, if there is one. -/
def decryptData (encData : List UInt8) : Outcome :=
  match st.sessionKey with
  | some key =>
    match sessionDecrypt d.cipher key encData with
    | some fileData => .token fileData
    | none => .null
  | none => decryptFile d.rsa true encData

/-- Write a file under the present name. A path that cannot be opened is passed over. -/
def writeFile (fileData : List UInt8) : Verdict :=
  match cString st.filename.bytes with
  | none => .undefined
  | some filename =>
    let outpath := outPath filename
    let files :=
      if d.opens outpath then Function.update st.files outpath (some fileData) else st.files
    .goOn { st with files := files } w

/-- `MSG_FILE_DATA`, once the bytes of the data are read; `none` is `NULL`. -/
def storeFile (encData : Option (List UInt8)) : Verdict :=
  if d.hasKey then
    match encData with
    -- `NULL` is printed and decrypted
    | none => .undefined
    | some encData =>
      match st.decryptData d encData with
      | .undefined => .undefined
      | .null => .done st w
      | .token fileData => st.writeFile d w fileData
  else .done st w

/-- `MSG_AUTH`, once the challenge is read: the signature goes out, then the certificate. -/
def answerAuth (challenge : List UInt8) : Verdict :=
  if d.hasKey then
    match d.sign st.signed challenge with
    | none => .done st w
    | some sig =>
      let st := { st with signed := st.signed + 1 }
      let (w, _) := sendInt w (.ofNat sig.length)
      let (w, _) := sendAll w sig
      match d.cert with
      | none => .done st w
      | some cert =>
        let (w, _) := sendInt w (.ofNat cert.bytes.length)
        let (w, _) := sendAll w cert.bytes
        .goOn st w
  else .done st w

/-- `MSG_SYMKEY`, once the encrypted key is read. -/
def storeKey (encKey : List UInt8) : Verdict :=
  if d.hasKey then
    match d.rsa.decryptBlock true encKey with
    | none => .done st w
    | some decKey =>
      if h : decKey.length = sessionKeyLen then .goOn { st with sessionKey := some ⟨decKey, h⟩ } w
      else .done st w
  else .done st w

/-- A message of each type. Its bytes are `none` where `read_bytes` gave `NULL`. -/
def handle (msgType : UInt64) (payload : Option (List UInt8)) : Verdict :=
  if msgType = msgFilename then
    match payload with
    | none => .undefined
    | some fnBuf => st.storeFilename w fnBuf
  else if msgType = msgFileData then st.storeFile d w payload
  else if msgType = msgAuth then
    match payload with
    | none => .done st w
    | some challenge => st.answerAuth d w challenge
  else
    match payload with
    | none => .done st w
    | some encKey => st.storeKey d w encKey

theorem handle_filename (fnBuf : List UInt8) :
    st.handle d w msgFilename (some fnBuf) = st.storeFilename w fnBuf :=
  if_pos rfl

theorem handle_fileData (encData : Option (List UInt8)) :
    st.handle d w msgFileData encData = st.storeFile d w encData :=
  (if_neg (by decide)).trans (if_pos rfl)

theorem handle_auth (challenge : List UInt8) :
    st.handle d w msgAuth (some challenge) = st.answerAuth d w challenge :=
  (if_neg (by decide)).trans ((if_neg (by decide)).trans (if_pos rfl))

theorem handle_symkey (encKey : List UInt8) :
    st.handle d w msgSymkey (some encKey) = st.storeKey d w encKey :=
  (if_neg (by decide)).trans ((if_neg (by decide)).trans (if_neg (by decide)))

/-- The file of a token goes to the path of the present name. -/
theorem storeFile_token {encData fileData name : List UInt8} (hd : d.hasKey = true)
    (hname : cString st.filename.bytes = some name)
    (hopen : st.decryptData d encData = .token fileData) :
    st.storeFile d w (some encData) =
      .goOn
        { st with
          files :=
            if d.opens (outPath name) then Function.update st.files (outPath name) (some fileData)
            else st.files } w := by
  simp only [storeFile, if_pos hd, hopen, writeFile, hname]

/-- The types that come with a length and bytes. -/
def HasPayload (msgType : UInt64) : Prop :=
  msgType = msgFilename ∨ msgType = msgFileData ∨ msgType = msgAuth ∨ msgType = msgSymkey

instance (msgType : UInt64) : Decidable (HasPayload msgType) :=
  inferInstanceAs (Decidable (_ ∨ _))

/-- One turn of the loop. -/
def turn (s : Reader UInt8) : Reader UInt8 × Verdict :=
  match readBytes s 8 with
  | (s, none) => (s, .done st w)
  | (s, some typeBuf) =>
    let msgType := bytesToInt typeBuf
    if HasPayload msgType then
      match readBytes s 8 with
      -- `bytes_to_int` reads `NULL`
      | (s, none) => (s, .undefined)
      | (s, some lenBuf) =>
        match readBytes s (bytesToInt lenBuf) with
        | (s, payload) => (s, st.handle d w msgType payload)
    -- `MSG_CLOSE`, or a type that is not known
    else (s, .done st w)

end Server

/-! ## The loop -/

variable {d : ServerSetup} {st st' : Server} {s s' : Reader UInt8} {w w' : Writer UInt8}

namespace Server

/-- A message without its bytes ends the loop. -/
theorem handle_none (d : ServerSetup) (st : Server) (w : Writer UInt8) (msgType : UInt64) :
    st.handle d w msgType none = .undefined ∨ st.handle d w msgType none = .done st w := by
  unfold handle storeFile
  split_ifs <;> simp

/-- A turn ends the loop, or handles a message that it takes off the stream. -/
theorem turn_cases {v : Verdict} (h : st.turn d w s = (s', v)) :
    v = .done st w ∨ v = .undefined ∨ ∃ msgType pre payload,
      v = st.handle d w msgType (some payload) ∧ s.input = pre ++ (payload ++ s'.input) ∧
        0 < pre.length := by
  unfold turn at h
  rcases htype : readBytes s 8 with ⟨s₁, _ | typeBuf⟩
  · rw [htype] at h
    exact Or.inl (Prod.mk.inj h).2.symm
  simp only [htype] at h
  split_ifs at h with hp
  · rcases hlength : readBytes s₁ 8 with ⟨s₂, _ | lenBuf⟩
    · rw [hlength] at h
      exact Or.inr (Or.inl (Prod.mk.inj h).2.symm)
    rcases hpayload : readBytes s₂ (bytesToInt lenBuf) with ⟨s₃, _ | payload⟩
    · simp only [hlength, hpayload] at h
      rw [← (Prod.mk.inj h).2]
      exact (handle_none _ _ _ _).symm.imp_right Or.inl
    · simp only [hlength, hpayload] at h
      obtain ⟨rfl, rfl⟩ := Prod.mk.inj h
      obtain ⟨hin₁, hlen₁⟩ := readBytes_some htype
      refine Or.inr (Or.inr ⟨bytesToInt typeBuf, typeBuf ++ lenBuf, payload, rfl, ?_, ?_⟩)
      · rw [hin₁, (readBytes_some hlength).1, (readBytes_some hpayload).1, List.append_assoc]
      · rw [List.length_append, hlen₁]
        exact Nat.lt_add_right _ (by decide)
  · exact Or.inl (Prod.mk.inj h).2.symm

/-- A turn after which the loop goes on has taken something off the stream. -/
theorem turn_goOn_lt (h : st.turn d w s = (s', .goOn st' w')) :
    s'.input.length < s.input.length := by
  rcases turn_cases h with hv | hv | ⟨_, pre, payload, -, hin, hpos⟩
  · cases hv
  · cases hv
  · rw [hin, List.length_append, List.length_append]
    omega

end Server

/-- The loop over the messages; `none` where it reads or writes outside its memory. -/
def Server.serve (d : ServerSetup) (st : Server) (w : Writer UInt8) (s : Reader UInt8) :
    Option (Server × Writer UInt8) :=
  match _h : st.turn d w s with
  | (s', .goOn st' w') => serve d st' w' s'
  | (_, .done st' w') => some (st', w')
  | (_, .undefined) => none
termination_by s.input.length
decreasing_by exact Server.turn_goOn_lt _h

/-! ## Messages on the stream -/

/-- A message that comes with bytes. -/
structure Message where
  msgType : UInt64
  hasPayload : Server.HasPayload msgType
  payload : List UInt8
  length_lt : payload.length < 2 ^ 64

/-- A message on the wire. -/
def Message.wire (m : Message) : List UInt8 := intToBytes m.msgType ++ frame m.payload

/-- How the messages end: at the end of the stream, at `MSG_CLOSE` or a type that is not known, or
inside a message. -/
inductive Ending
  | closed
  | cutLength
  | cutPayload (msgType : UInt64)

/-- What follows the messages on the stream. -/
inductive Ends : List UInt8 → Ending → Prop
  | short {rest : List UInt8} (h : rest.length < 8) : Ends rest .closed
  | closed {msgType : UInt64} {rest : List UInt8} (h : ¬ Server.HasPayload msgType) :
      Ends (intToBytes msgType ++ rest) .closed
  | cutLength {msgType : UInt64} {part : List UInt8} (h : Server.HasPayload msgType)
      (hlt : part.length < 8) : Ends (intToBytes msgType ++ part) .cutLength
  | cutPayload {msgType length : UInt64} {part : List UInt8} (h : Server.HasPayload msgType)
      (hlt : part.length < length.toNat) :
      Ends (intToBytes msgType ++ (intToBytes length ++ part)) (.cutPayload msgType)

/-- What comes out of a verdict, if the loop goes on with `rest`. -/
def Verdict.proceed (v : Verdict) (rest : Server → Writer UInt8 → Option (Server × Writer UInt8)) :
    Option (Server × Writer UInt8) :=
  match v with
  | .goOn st w => rest st w
  | .done st w => some (st, w)
  | .undefined => none

/-- The property holds of the state and the output that a verdict leaves. -/
def Verdict.Leaves (P : Server → Writer UInt8 → Prop) : Verdict → Prop
  | .goOn st w | .done st w => P st w
  | .undefined => True

namespace Server

/-- The messages one after the other, as long as the loop goes on. -/
def handleAll (d : ServerSetup) (st : Server) (w : Writer UInt8) : List Message → Verdict
  | [] => .goOn st w
  | m :: ms =>
    match st.handle d w m.msgType (some m.payload) with
    | .goOn st w => handleAll d st w ms
    | v => v

/-- The end of the loop. -/
def finish (d : ServerSetup) (st : Server) (w : Writer UInt8) : Ending →
    Option (Server × Writer UInt8)
  | .closed => some (st, w)
  | .cutLength => none
  | .cutPayload msgType => (st.handle d w msgType none).proceed fun _ _ => none

/-- The messages, and then the end. -/
def outcome (d : ServerSetup) (st : Server) (w : Writer UInt8) (ms : List Message) (e : Ending) :
    Option (Server × Writer UInt8) :=
  (handleAll d st w ms).proceed fun st w => finish d st w e

theorem serve_eq {v : Verdict} (h : st.turn d w s = (s', v)) :
    serve d st w s = v.proceed fun st' w' => serve d st' w' s' := by
  rw [serve]
  split <;> rename_i heq <;> rw [h] at heq <;> obtain ⟨rfl, rfl⟩ := Prod.mk.inj heq <;> rfl

section Steady

variable (hp : Steady s.pace)
include hp

theorem turn_message (d : ServerSetup) (st : Server) (w : Writer UInt8) {m : Message}
    {rest : List UInt8} (hin : s.input = m.wire ++ rest) :
    ∃ s', st.turn d w s = (s', st.handle d w m.msgType (some m.payload)) ∧ s'.input = rest ∧
      Steady s'.pace := by
  rw [Message.wire, frame, List.append_assoc, List.append_assoc] at hin
  obtain ⟨s₁, hs₁, hin₁, hp₁⟩ := readBytes_append hp hin (length_intToBytes_eq _)
  obtain ⟨s₂, hs₂, hin₂, hp₂⟩ := readBytes_append hp₁ hin₁ (length_intToBytes_eq _)
  obtain ⟨s₃, hs₃, hin₃, hp₃⟩ := readBytes_append hp₂ hin₂ (toNat_length m.length_lt).symm
  refine ⟨s₃, ?_, hin₃, hp₃⟩
  simp only [turn, hs₁, hs₂, hs₃, bytesToInt_intToBytes, if_pos m.hasPayload]

/-- The end of the messages ends the loop. -/
theorem serve_ends {e : Ending} (h : Ends s.input e) : serve d st w s = finish d st w e := by
  rcases hs : s with ⟨input, pace⟩
  subst hs
  dsimp only at h hp
  cases h with
  | short h =>
    obtain ⟨s', hr⟩ := readBytes_of_lt (s := ⟨input, pace⟩) (n := 8) h
    have hturn : st.turn d w ⟨input, pace⟩ = (s', .done st w) := by simp only [turn, hr]
    exact serve_eq hturn
  | @closed msgType rest h =>
    obtain ⟨s', hr, -, -⟩ := readBytes_append (s := ⟨intToBytes msgType ++ rest, pace⟩) hp rfl
      (length_intToBytes_eq _)
    have hturn : st.turn d w ⟨intToBytes msgType ++ rest, pace⟩ = (s', .done st w) := by
      simp only [turn, hr, bytesToInt_intToBytes, if_neg h]
    exact serve_eq hturn
  | @cutLength msgType part h hlt =>
    obtain ⟨s₁, hs₁, hin₁, -⟩ := readBytes_append (s := ⟨intToBytes msgType ++ part, pace⟩) hp rfl
      (length_intToBytes_eq _)
    obtain ⟨s₂, hs₂⟩ := readBytes_of_lt (s := s₁) (n := 8) (by rw [hin₁]; exact hlt)
    have hturn : st.turn d w ⟨intToBytes msgType ++ part, pace⟩ = (s₂, .undefined) := by
      simp only [turn, hs₁, hs₂, bytesToInt_intToBytes, if_pos h]
    exact serve_eq hturn
  | @cutPayload msgType length part h hlt =>
    obtain ⟨s₁, hs₁, hin₁, hp₁⟩ := readBytes_append
      (s := ⟨intToBytes msgType ++ (intToBytes length ++ part), pace⟩) hp rfl
      (length_intToBytes_eq _)
    obtain ⟨s₂, hs₂, hin₂, -⟩ := readBytes_append hp₁ hin₁ (length_intToBytes_eq _)
    obtain ⟨s₃, hs₃⟩ := readBytes_of_lt (s := s₂) (n := length) (by rw [hin₂]; exact hlt)
    have hturn : st.turn d w ⟨intToBytes msgType ++ (intToBytes length ++ part), pace⟩ =
        (s₃, st.handle d w msgType none) := by
      simp only [turn, hs₁, hs₂, hs₃, bytesToInt_intToBytes, if_pos h]
    rw [serve_eq hturn, finish]
    rcases handle_none d st w msgType with hv | hv <;> rw [hv] <;> rfl

/-- The loop takes the messages off the stream one after the other. -/
theorem serve_outcome {ms : List Message} {rest : List UInt8} {e : Ending}
    (hin : s.input = ms.flatMap Message.wire ++ rest) (he : Ends rest e) :
    serve d st w s = outcome d st w ms e := by
  induction ms generalizing st w s with
  | nil => exact serve_ends hp (by simpa using hin ▸ he)
  | cons m ms ih =>
    rw [List.flatMap_cons, List.append_assoc] at hin
    obtain ⟨s', hturn, hin', hp'⟩ := turn_message hp d st w hin
    rw [serve_eq hturn, outcome, handleAll]
    cases st.handle d w m.msgType (some m.payload) with
    | goOn st' w' => exact ih hp' hin'
    | done st' w' => rfl
    | undefined => rfl

end Steady

/-! ## Any stream -/

/-- A stream of at least eight bytes starts with a number. -/
theorem exists_intToBytes {input : List UInt8} (h : 8 ≤ input.length) :
    ∃ x rest, input = intToBytes x ++ rest := by
  have hlen : (input.take 8).length = 8 := List.length_take_of_le h
  refine ⟨bytesToInt (input.take 8), input.drop 8, ?_⟩
  rw [intToBytes_bytesToInt hlen, List.take_append_drop]

theorem exists_messages (input : List UInt8) :
    ∃ (ms : List Message) (rest : List UInt8) (e : Ending),
      input = ms.flatMap Message.wire ++ rest ∧ Ends rest e := by
  induction h : input.length using Nat.strongRecOn generalizing input with
  | ind n ih =>
    subst h
    rcases Nat.lt_or_ge input.length 8 with hlt | hge
    · exact ⟨[], input, .closed, rfl, .short hlt⟩
    obtain ⟨msgType, rest₁, rfl⟩ := exists_intToBytes hge
    by_cases hp : HasPayload msgType
    · rcases Nat.lt_or_ge rest₁.length 8 with hlt | hge
      · exact ⟨[], _, _, rfl, .cutLength hp hlt⟩
      obtain ⟨length, rest₂, rfl⟩ := exists_intToBytes hge
      rcases Nat.lt_or_ge rest₂.length length.toNat with hlt | hge
      · exact ⟨[], _, _, rfl, .cutPayload hp hlt⟩
      have hlen : (rest₂.take length.toNat).length = length.toNat := List.length_take_of_le hge
      let m : Message := ⟨msgType, hp, rest₂.take length.toNat, by rw [hlen]; exact length.toNat_lt⟩
      have hwire : intToBytes msgType ++ (intToBytes length ++ rest₂) =
          m.wire ++ rest₂.drop length.toNat := by
        rw [Message.wire, frame, hlen, UInt64.ofNat_toNat, List.append_assoc, List.append_assoc,
          List.take_append_drop]
      have hlt : (rest₂.drop length.toNat).length <
          (intToBytes msgType ++ (intToBytes length ++ rest₂)).length := by
        simp only [List.length_drop, List.length_append, length_intToBytes]
        omega
      obtain ⟨ms, rest, e, heq, he⟩ := ih _ hlt _ rfl
      refine ⟨m :: ms, rest, e, ?_, he⟩
      rw [hwire, heq, List.flatMap_cons, List.append_assoc]
    · exact ⟨[], _, _, rfl, .closed hp⟩

theorem wire_append_inj {m m' : Message} {rest rest' : List UInt8}
    (h : m.wire ++ rest = m'.wire ++ rest') : m = m' ∧ rest = rest' := by
  obtain ⟨t, hp, payload, hlt⟩ := m
  obtain ⟨t', hp', payload', hlt'⟩ := m'
  simp only [Message.wire, frame, List.append_assoc] at h
  have hints := fun x y : UInt64 => (length_intToBytes x).trans (length_intToBytes y).symm
  obtain ⟨ht, h⟩ := List.append_inj h (hints _ _)
  obtain ⟨hl, h⟩ := List.append_inj h (hints _ _)
  have ht' : t = t' := by simpa only [bytesToInt_intToBytes] using congrArg bytesToInt ht
  have hl' : payload.length = payload'.length := by
    have := congrArg (fun b => (bytesToInt b).toNat) hl
    simpa only [bytesToInt_intToBytes, toNat_length hlt, toNat_length hlt'] using this
  obtain ⟨rfl, rfl⟩ := List.append_inj h hl'
  subst ht'
  exact ⟨rfl, rfl⟩

/-- No message starts where the messages end. -/
theorem not_ends_wire {m : Message} {rest : List UInt8} {e : Ending} :
    ¬ Ends (m.wire ++ rest) e := by
  obtain ⟨t, hp, payload, hlt⟩ := m
  have hints := fun x y : UInt64 => (length_intToBytes x).trans (length_intToBytes y).symm
  intro h
  generalize hin : Message.wire ⟨t, hp, payload, hlt⟩ ++ rest = input at h
  simp only [Message.wire, frame, List.append_assoc] at hin
  cases h with
  | short h =>
    have hlen := congrArg List.length hin
    simp only [List.length_append, length_intToBytes] at hlen
    omega
  | closed h =>
    obtain ⟨ht, -⟩ := List.append_inj hin (hints _ _)
    have ht' := congrArg bytesToInt ht
    rw [bytesToInt_intToBytes, bytesToInt_intToBytes] at ht'
    exact h (ht' ▸ hp)
  | cutLength h hlt' =>
    obtain ⟨-, hin⟩ := List.append_inj hin (hints _ _)
    have hlen := congrArg List.length hin
    simp only [List.length_append, length_intToBytes] at hlen
    omega
  | cutPayload h hlt' =>
    obtain ⟨-, hin⟩ := List.append_inj hin (hints _ _)
    obtain ⟨hl, hin⟩ := List.append_inj hin (hints _ _)
    have hl' := congrArg (fun b => (bytesToInt b).toNat) hl
    simp only [bytesToInt_intToBytes, toNat_length hlt] at hl'
    have hlen := congrArg List.length hin
    rw [List.length_append] at hlen
    omega

/-- A stream can be read as messages in one way only. -/
theorem messages_unique {ms ms' : List Message} {rest rest' : List UInt8} {e e' : Ending}
    (h : ms.flatMap Message.wire ++ rest = ms'.flatMap Message.wire ++ rest')
    (he : Ends rest e) (he' : Ends rest' e') : ms = ms' ∧ rest = rest' := by
  induction ms generalizing ms' with
  | nil =>
    cases ms' with
    | nil => exact ⟨rfl, h⟩
    | cons m' ms' =>
      rw [List.flatMap_nil, List.nil_append, List.flatMap_cons, List.append_assoc] at h
      exact absurd (h ▸ he) not_ends_wire
  | cons m ms ih =>
    rw [List.flatMap_cons, List.append_assoc] at h
    cases ms' with
    | nil =>
      rw [List.flatMap_nil, List.nil_append] at h
      exact absurd (h ▸ he') not_ends_wire
    | cons m' ms' =>
      rw [List.flatMap_cons, List.append_assoc] at h
      obtain ⟨rfl, htail⟩ := wire_append_inj h
      obtain ⟨rfl, rfl⟩ := ih htail
      exact ⟨rfl, rfl⟩

/-- Whatever bytes arrive, in whatever pieces, they are messages up to one point, in one way only,
and the server does what these messages say one after the other. Then it stops, or, where a
message breaks off, does what `finish` says. -/
theorem serve_stream (d : ServerSetup) (st : Server) (w : Writer UInt8) (input : List UInt8)
    (pace : Nat → Nat) (hp : Steady pace) :
    ∃ (ms : List Message) (rest : List UInt8) (e : Ending),
      input = ms.flatMap Message.wire ++ rest ∧ Ends rest e ∧
      serve d st w ⟨input, pace⟩ = outcome d st w ms e ∧
      ∀ (ms' : List Message) (rest' : List UInt8) (e' : Ending),
        input = ms'.flatMap Message.wire ++ rest' → Ends rest' e' → ms' = ms ∧ rest' = rest := by
  obtain ⟨ms, rest, e, hin, he⟩ := exists_messages input
  refine ⟨ms, rest, e, hin, he, serve_outcome hp hin he, fun ms' rest' e' hin' he' => ?_⟩
  exact messages_unique (hin'.symm.trans hin) he' he

/-- The name `a`. -/
def nameMessage : Message := ⟨msgFilename, Or.inl rfl, [97], by decide⟩

/-- A name arrives, and then the end. -/
theorem serve_stream_name :
    ∃ e, Ends (intToBytes msgClose) e ∧
      serve .clear .blank ⟨[], fun _ => 1⟩
        ⟨nameMessage.wire ++ intToBytes msgClose, fun _ => 1⟩ =
          outcome .clear .blank ⟨[], fun _ => 1⟩ [nameMessage] e := by
  obtain ⟨ms, rest, e, -, he, hserve, hall⟩ := serve_stream .clear .blank ⟨[], fun _ => 1⟩
    (nameMessage.wire ++ intToBytes msgClose) (fun _ => 1) fun _ => Nat.one_pos
  have hclose : Ends (intToBytes msgClose ++ []) .closed := .closed (by decide)
  rw [List.append_nil] at hclose
  obtain ⟨rfl, rfl⟩ := hall [nameMessage] (intToBytes msgClose) .closed rfl hclose
  exact ⟨e, he, hserve⟩

/-! ## What the server keeps -/

/-- What all messages of a stream keep holds at the end of the loop. -/
theorem serve_keeps {P : Server → Writer UInt8 → Prop} {input : List UInt8}
    (hin : s.input <:+ input)
    (hstep : ∀ st w msgType payload, payload <:+: input → P st w →
      (handle d st w msgType (some payload)).Leaves P)
    (hst : P st w) (h : serve d st w s = some (st', w')) : P st' w' := by
  induction hlen : s.input.length using Nat.strongRecOn generalizing st w s with
  | ind n ih =>
    subst hlen
    rcases hturn : st.turn d w s with ⟨s₁, v⟩
    rw [serve_eq hturn] at h
    rcases turn_cases hturn with rfl | rfl | ⟨msgType, pre, payload, rfl, heq, hpos⟩
    · obtain ⟨rfl, rfl⟩ := Prod.mk.inj (Option.some.inj h)
      exact hst
    · cases h
    · have hmem : payload <:+: input := by
        have hpay : payload <:+: s.input := by
          rw [heq]
          exact ⟨pre, s₁.input, by rw [List.append_assoc]⟩
        exact hpay.trans hin.isInfix
      have hnext := hstep st w msgType payload hmem hst
      rcases hv : handle d st w msgType (some payload) with ⟨st₁, w₁⟩ | ⟨st₁, w₁⟩ | _
      · rw [hv] at h hnext
        refine ih _ ?_ ?_ hnext h rfl
        · rw [heq, List.length_append, List.length_append]
          omega
        · refine List.IsSuffix.trans ?_ hin
          rw [heq, ← List.append_assoc]
          exact List.suffix_append _ _
      · rw [hv] at h hnext
        obtain ⟨rfl, rfl⟩ := Prod.mk.inj (Option.some.inj h)
        exact hnext
      · rw [hv] at h
        cases h

/-- Data on a stream that opens to the contents of a file: as blocks, or with a session key that
came on the same stream. -/
inductive Origin (d : ServerSetup) (input content : List UInt8) : Prop
  | blocks {data : List UInt8} (hd : data <:+: input)
      (h : decryptFile d.rsa true data = .token content)
  | session {encKey data : List UInt8} {key : Bytes sessionKeyLen} (hk : encKey <:+: input)
      (hkey : d.rsa.decryptBlock true encKey = some key.bytes) (hd : data <:+: input)
      (h : sessionDecrypt d.cipher key data = some content)

/-- What a server holds beside the files that it had before it read a stream. -/
structure Traced (d : ServerSetup) (input : List UInt8) (st₀ st : Server) : Prop where
  key : ∀ key, st.sessionKey = some key → ∃ encKey, encKey <:+: input ∧
    d.rsa.decryptBlock true encKey = some key.bytes
  files : ∀ path, st.files path ≠ st₀.files path →
    (∃ base, path = recvPrefix ++ base ∧ slash ∉ base ∧ path.length < pathSize) ∧
      d.opens path = true ∧ ∃ content, st.files path = some content ∧ Origin d input content

theorem slash_notMem_baseName (path : List UInt8) : slash ∉ baseName path := by
  intro h
  rw [baseName, List.mem_reverse] at h
  simpa using List.mem_takeWhile_imp h

theorem outPath_eq (filename : List UInt8) :
    ∃ base, outPath filename = recvPrefix ++ base ∧ slash ∉ base ∧
      (outPath filename).length < pathSize := by
  refine ⟨(baseName filename).take (pathSize - 1 - recvPrefix.length), ?_, ?_, ?_⟩
  · rw [outPath, List.take_append, List.take_of_length_le (by decide)]
  · intro h
    exact slash_notMem_baseName filename (List.mem_of_mem_take h)
  · exact Nat.lt_of_le_of_lt (List.length_take_le _ _) (by decide)

variable {input : List UInt8} {st₀ : Server}

theorem decryptData_origin (h : Traced d input st₀ st) {encData content : List UInt8}
    (hd : encData <:+: input) (ht : st.decryptData d encData = .token content) :
    Origin d input content := by
  unfold decryptData at ht
  rcases hkey : st.sessionKey with _ | key
  · rw [hkey] at ht
    exact .blocks hd ht
  · obtain ⟨encKey, hmem, hdec⟩ := h.key key hkey
    simp only [hkey] at ht
    rcases hopen : sessionDecrypt d.cipher key encData with _ | fileData
    · simp [hopen] at ht
    · rw [hopen] at ht
      obtain rfl := Outcome.token.inj ht
      exact .session hmem hdec hd hopen

theorem writeFile_traced (h : Traced d input st₀ st) {content : List UInt8}
    (ho : Origin d input content) :
    (st.writeFile d w content).Leaves fun st _ => Traced d input st₀ st := by
  unfold writeFile
  rcases cString st.filename.bytes with _ | filename
  · trivial
  · refine ⟨h.key, fun path hne => ?_⟩
    dsimp only at hne ⊢
    by_cases hopens : d.opens (outPath filename) = true
    · rw [if_pos hopens] at hne ⊢
      by_cases hpath : path = outPath filename
      · subst hpath
        exact ⟨outPath_eq filename, hopens, content, Function.update_self _ _ _, ho⟩
      · rw [Function.update_of_ne hpath] at hne ⊢
        exact h.files path hne
    · rw [if_neg hopens] at hne ⊢
      exact h.files path hne

theorem storeFile_traced (h : Traced d input st₀ st) {encData : List UInt8}
    (hd : encData <:+: input) :
    (st.storeFile d w (some encData)).Leaves fun st _ => Traced d input st₀ st := by
  unfold storeFile
  split_ifs
  · dsimp only
    rcases ht : st.decryptData d encData with _ | content | _
    · exact h
    · exact writeFile_traced h (decryptData_origin h hd ht)
    · trivial
  · exact h

theorem answerAuth_traced (h : Traced d input st₀ st) (challenge : List UInt8) :
    (st.answerAuth d w challenge).Leaves fun st _ => Traced d input st₀ st := by
  unfold answerAuth
  split_ifs
  · rcases d.sign st.signed challenge with _ | sig
    · exact h
    · rcases d.cert with _ | cert <;> exact ⟨h.key, h.files⟩
  · exact h

theorem storeKey_traced (h : Traced d input st₀ st) {encKey : List UInt8}
    (hk : encKey <:+: input) :
    (st.storeKey d w encKey).Leaves fun st _ => Traced d input st₀ st := by
  unfold storeKey
  split_ifs
  · rcases hdec : d.rsa.decryptBlock true encKey with _ | decKey
    · exact h
    · by_cases hlen : decKey.length = sessionKeyLen
      · simp only [dif_pos hlen]
        refine ⟨fun key hkey => ?_, h.files⟩
        obtain rfl := Option.some.inj hkey
        exact ⟨encKey, hk, hdec⟩
      · simp only [dif_neg hlen]
        exact h
  · exact h

theorem handle_traced (h : Traced d input st₀ st) (msgType : UInt64) {payload : List UInt8}
    (hm : payload <:+: input) :
    (st.handle d w msgType (some payload)).Leaves fun st _ => Traced d input st₀ st := by
  unfold handle
  split_ifs
  · dsimp only
    unfold storeFilename
    split_ifs
    · exact ⟨h.key, h.files⟩
    · trivial
  · exact storeFile_traced h hm
  · exact answerAuth_traced h payload
  · exact storeKey_traced h hm

/-- Whatever bytes arrive, in whatever pieces and however the connection breaks, a server that
comes to its end has written only files of `recv_files` whose names start with `recv_`, and only
what a piece of the stream opens to: as blocks for its own key, or as a token under a session key
that was itself sent for its own key. -/
theorem serve_confined (d : ServerSetup) (st : Server) (w : Writer UInt8) (s : Reader UInt8)
    (st' : Server) (w' : Writer UInt8) (hkey : st.sessionKey = none)
    (h : serve d st w s = some (st', w')) (path : List UInt8)
    (hpath : st'.files path ≠ st.files path) :
    (∃ base, path = recvPrefix ++ base ∧ slash ∉ base ∧ path.length < pathSize) ∧
      d.opens path = true ∧
      ∃ content, st'.files path = some content ∧ Origin d s.input content := by
  have hst : Traced d s.input st st :=
    ⟨fun key hk => absurd (hkey.symm.trans hk) (Option.some_ne_none key).symm,
      fun _ hne => absurd rfl hne⟩
  have htraced := serve_keeps (P := fun st' _ => Traced d s.input st st') (List.suffix_refl _)
    (fun _ _ msgType _ hmem hst => handle_traced hst msgType hmem) hst h
  exact htraced.files path hpath

/-- A block of the clear key, with the one byte of a file. -/
def byteBlock : List UInt8 := 1 :: 98 :: List.replicate 126 0

/-- The byte in a file, under the name `a`. -/
def byteFile : List Message :=
  [nameMessage, ⟨msgFileData, Or.inr (Or.inl rfl), byteBlock, by simp [byteBlock]⟩]

theorem serve_confined_byte :
    ∃ st' w', serve .clear .blank ⟨[], fun _ => 1⟩ ⟨byteFile.flatMap Message.wire, fun _ => 1⟩ =
        some (st', w') ∧
      st'.files (outPath [97]) = some [98] ∧
      (∃ base, outPath [97] = recvPrefix ++ base ∧ slash ∉ base ∧
        (outPath [97]).length < pathSize) ∧
      ServerSetup.clear.opens (outPath [97]) = true ∧
      ∃ content, st'.files (outPath [97]) = some content ∧
        Origin .clear (byteFile.flatMap Message.wire) content := by
  have hdata : decryptFile ServerSetup.clear.rsa true byteBlock = .token [98] := by
    have hblock : ∀ b ∈ [byteBlock], b.length = rsaKeyBytes := List.forall_mem_singleton.mpr rfl
    exact decryptFile_blocks ServerSetup.clear.rsa true hblock
      (show [].length < rsaKeyBytes by decide)
  have hserve : serve .clear .blank ⟨[], fun _ => 1⟩ ⟨byteFile.flatMap Message.wire, fun _ => 1⟩ =
      outcome .clear .blank ⟨[], fun _ => 1⟩ byteFile .closed :=
    serve_outcome (fun _ => Nat.one_pos) (List.append_nil _).symm (.short (by decide))
  have hfile : ∃ st' w', outcome .clear .blank ⟨[], fun _ => 1⟩ byteFile .closed =
      some (st', w') ∧ st'.files (outPath [97]) = some [98] := by
    have hname : cString (fill pathSize [97] (by decide)).bytes = some [97] :=
      cString_fill (by decide) (by decide)
    let named : Server := { Server.blank with filename := fill pathSize [97] (by decide) }
    refine ⟨{ named with files := Function.update Server.blank.files (outPath [97]) (some [98]) },
      ⟨[], fun _ => 1⟩, ?_,
      Function.update_self (outPath [97]) (some [98]) Server.blank.files⟩
    have hfirst : Server.blank.storeFilename ⟨[], fun _ => 1⟩ [97] = .goOn named ⟨[], fun _ => 1⟩ :=
      dif_pos (by decide)
    rw [outcome, byteFile, handleAll, nameMessage]
    dsimp only
    rw [handle_filename, hfirst]
    dsimp only
    rw [handleAll]
    dsimp only
    rw [handle_fileData, storeFile_token .clear named _ rfl hname hdata]
    rfl
  obtain ⟨st', w', hout, hsome⟩ := hfile
  have hne : st'.files (outPath [97]) ≠ Server.blank.files (outPath [97]) := by
    rw [hsome]
    exact Option.some_ne_none _
  exact ⟨st', w', hserve.trans hout, hsome,
    serve_confined .clear .blank _ _ st' w' rfl (hserve.trans hout) _ hne⟩

end Server

end Corestack.Tetrissh
