import Corestack.Tetrissh.Client

/-! # Client and server together

Each end reads what the other writes. The files arrive as they are on the disk of
the client, except that a long one is cut to its length modulo 2³² or left out.
-/

namespace Corestack.Tetrissh

open Socket Server

/-- The client trusts the certificate of the server, and it is the one of its key. -/
structure Paired {Cert : Type} (c : ClientSetup Cert) (d : ServerSetup) where
  cert : Cert
  crt : Buffer
  cipher_eq : c.cipher = d.cipher
  hasKey : d.hasKey = true
  crt_eq : d.cert = some crt
  loads : c.loadCert crt.bytes (toInt crt.bytes.length) = some cert
  verifies : c.verifyServerCert cert = true
  publicKey_eq : c.publicKey cert = some d.rsa.encryptBlock
  signs : ∀ seed (challenge : Bytes sessionKeyLen), ∃ sig,
    d.sign seed challenge.bytes = some sig ∧ c.verifyMessagePss cert sig challenge.bytes = true

/-- What arrives of a file; nothing if it is refused. -/
def arriving (content : Buffer) : Option (List UInt8) :=
  if content.bytes.length % 2 ^ 32 < 2 ^ 31 then
    some (content.bytes.take (content.bytes.length % 2 ^ 32))
  else none

/-- The lengths that `session_encrypt` can deal with. -/
def Sealable (n : Nat) : Prop :=
  n % 2 ^ 32 < 2 ^ 31 - 16 ∨ 2 ^ 31 ≤ n % 2 ^ 32 ∧ 16 ≤ (n + 64) % 2 ^ 64

/-- The files of the server after one more from the client. -/
def deliverFile {Cert : Type} (c : ClientSetup Cert) (d : ServerSetup) (filename : List UInt8)
    (files : List UInt8 → Option (List UInt8)) : List UInt8 → Option (List UInt8) :=
  match (c.readFile filename).bind arriving with
  | none => files
  | some content =>
    if d.opens (outPath filename) then Function.update files (outPath filename) (some content)
    else files

/-- The files of the server after all that are typed in. -/
def deliver {Cert : Type} (c : ClientSetup Cert) (d : ServerSetup) :
    List FileName → (List UInt8 → Option (List UInt8)) → List UInt8 → Option (List UInt8)
  | [], files => files
  | filename :: rest, files =>
    if filename.bytes = minusOne then files
    else if c.isRegular filename.bytes then deliver c d rest (deliverFile c d filename.bytes files)
    else deliver c d rest files

variable {Cert : Type} {c : ClientSetup Cert} {d : ServerSetup} {st : Server}
  {w sw : Writer UInt8} {key : Bytes sessionKeyLen}

/-! ## Messages of the client -/

theorem putMessage_steady (hp : Steady w.pace) (m : Message) :
    (putMessage w m.msgType m.payload).output = w.output ++ m.wire ∧
      Steady (putMessage w m.msgType m.payload).pace := by
  obtain ⟨w₁, h₁, hout₁, hp₁⟩ := sendAll_steady hp (intToBytes m.msgType)
  obtain ⟨w₂, h₂, hout₂, hp₂⟩ := sendAll_steady hp₁ (intToBytes (.ofNat m.payload.length))
  obtain ⟨w₃, h₃, hout₃, hp₃⟩ := sendAll_steady hp₂ m.payload
  simp only [putMessage, sendInt, h₁, h₂, h₃]
  refine ⟨?_, hp₃⟩
  rw [hout₃, hout₂, hout₁, Message.wire, frame, List.append_assoc, List.append_assoc]

theorem FileName.length_lt_two_pow (filename : FileName) : filename.bytes.length < 2 ^ 64 :=
  Nat.lt_trans filename.length_lt (by decide)

theorem hasPayload_filename : HasPayload msgFilename := Or.inl rfl

def filenameMessage (filename : FileName) : Message where
  msgType := msgFilename
  hasPayload := hasPayload_filename
  payload := filename.bytes
  length_lt := filename.length_lt_two_pow

/-- With the session key, the messages turn the files of a server into others, and nothing is
written back. -/
def Carries (d : ServerSetup) (key : Bytes sessionKeyLen) (ms : List Message)
    (f : (List UInt8 → Option (List UInt8)) → List UInt8 → Option (List UInt8)) : Prop :=
  ∀ st sw, st.sessionKey = some key → ∃ st', handleAll d st sw ms = .goOn st' sw ∧
    st'.sessionKey = some key ∧ st'.files = f st.files

theorem handleAll_append (d : ServerSetup) (st : Server) (sw : Writer UInt8)
    (ms ms' : List Message) :
    handleAll d st sw (ms ++ ms') =
      match handleAll d st sw ms with
      | .goOn st sw => handleAll d st sw ms'
      | v => v := by
  induction ms generalizing st sw with
  | nil => rfl
  | cons m ms ih =>
    rw [List.cons_append, handleAll, handleAll]
    cases st.handle d sw m.msgType (some m.payload) with
    | goOn st sw => exact ih st sw
    | done => rfl
    | undefined => rfl

theorem Carries.append {ms ms' : List Message}
    {f f' : (List UInt8 → Option (List UInt8)) → List UInt8 → Option (List UInt8)}
    (h : Carries d key ms f) (h' : Carries d key ms' f') :
    Carries d key (ms ++ ms') (f' ∘ f) := by
  intro st sw hkey
  obtain ⟨st₁, h₁, hkey₁, hfiles₁⟩ := h st sw hkey
  obtain ⟨st₂, h₂, hkey₂, hfiles₂⟩ := h' st₁ sw hkey₁
  refine ⟨st₂, ?_, hkey₂, ?_⟩
  · rw [handleAll_append, h₁]
    exact h₂
  · rw [hfiles₂, hfiles₁]
    rfl

/-- The server with a name that has arrived. -/
theorem storeFilename_name (filename : FileName) (st : Server) (sw : Writer UInt8) :
    st.storeFilename sw filename.bytes =
      .goOn { st with
        filename := fill pathSize filename.bytes (Nat.le_of_lt filename.length_lt) } sw :=
  dif_pos (Nat.le_of_lt filename.length_lt)

theorem carries_filename (filename : FileName) :
    Carries d key [filenameMessage filename] id := by
  intro st sw hkey
  let name := fill pathSize filename.bytes (Nat.le_of_lt filename.length_lt)
  refine ⟨{ st with filename := name }, ?_, hkey, rfl⟩
  rw [handleAll, filenameMessage]
  dsimp only
  rw [handle_filename, storeFilename_name]
  rfl

/-- A token of a file, behind its name. -/
theorem carries_file (hd : d.hasKey = true) (filename : FileName) (m : Message)
    (hm : m.msgType = msgFileData) {content : List UInt8}
    (ho : sessionDecrypt d.cipher key m.payload = some content) :
    Carries d key [filenameMessage filename, m] fun files =>
      if d.opens (outPath filename.bytes) then
        Function.update files (outPath filename.bytes) (some content) else files := by
  intro st sw hkey
  let name := fill pathSize filename.bytes (Nat.le_of_lt filename.length_lt)
  let outpath := outPath filename.bytes
  let files :=
    if d.opens outpath then Function.update st.files outpath (some content) else st.files
  refine ⟨{ st with filename := name, files := files }, ?_, hkey, rfl⟩
  have hname := cString_fill filename.zero_notMem filename.length_lt
  have hopen : ({ st with filename := name } : Server).decryptData d m.payload =
      .token content := by
    simp only [decryptData, hkey, ho]
  rw [handleAll, filenameMessage]
  dsimp only
  rw [handle_filename, storeFilename_name]
  dsimp only [handleAll]
  rw [hm, handle_fileData, storeFile_token _ _ _ hd hname hopen]

theorem length_sealed (cipher : Cipher) (key : Bytes sessionKeyLen) (iv : Bytes aesIvLen)
    (plain : List UInt8) :
    (sealed cipher key iv plain).length = (plain.length / aesBlock + 1) * aesBlock + 48 := by
  simp only [sealed, List.length_append, cipher.length_encrypt, cipher.length_hmac, iv.length_eq]
  simp only [aesIvLen, hmacLen]
  omega

/-- A file goes out as messages that deliver it. -/
theorem sendFile_carries (p : Paired c d) (hp : Steady w.pace) (key : Bytes sessionKeyLen)
    (iv : Bytes aesIvLen) (filename : FileName)
    (hs : ∀ content, c.readFile filename.bytes = some content → Sealable content.bytes.length) :
    ∃ w' ms, sendFile c key iv filename.bytes w = some w' ∧
      w'.output = w.output ++ ms.flatMap Message.wire ∧ Steady w'.pace ∧
      Carries d key ms (deliverFile c d filename.bytes) := by
  obtain ⟨hout, hp₁⟩ := putMessage_steady hp (filenameMessage filename)
  have hname : ([filenameMessage filename] : List Message).flatMap Message.wire =
      (filenameMessage filename).wire := by simp
  unfold sendFile
  rcases hread : c.readFile filename.bytes with _ | content
  · refine ⟨_, [filenameMessage filename], rfl, by rw [hname]; exact hout, hp₁, ?_⟩
    have hfiles : deliverFile c d filename.bytes = id := by
      funext files
      simp [deliverFile, hread]
    rw [hfiles]
    exact carries_filename filename
  · rcases hs content hread with hlt | ⟨hge, hsmall⟩
    · have henc := sessionEncrypt_of_nonneg c.cipher key iv
        (show content.bytes.length % 2 ^ 32 < 2 ^ 31 by omega)
      rw [if_pos hlt] at henc
      set plain := content.bytes.take (content.bytes.length % 2 ^ 32) with hplain
      have hlen : plain.length = content.bytes.length % 2 ^ 32 := by
        rw [hplain, List.length_take]
        exact Nat.min_eq_left (Nat.mod_le _ _)
      have hopen := sessionDecrypt_sealed c.cipher key iv (hlen ▸ hlt)
      let m : Message :=
        { msgType := msgFileData
          hasPayload := Or.inr (Or.inl rfl)
          payload := sealed c.cipher key iv plain
          length_lt := by
            rw [length_sealed, hlen]
            simp only [aesBlock]
            omega }
      obtain ⟨hout₂, hp₂⟩ := putMessage_steady hp₁ m
      refine ⟨_, [filenameMessage filename, m], by simp only [henc]; rfl, ?_, hp₂, ?_⟩
      · refine hout₂.trans ?_
        refine (congrArg (· ++ m.wire) hout).trans ?_
        simp
      · have hfiles : deliverFile c d filename.bytes = fun files =>
            if d.opens (outPath filename.bytes) then
              Function.update files (outPath filename.bytes) (some plain) else files := by
          funext files
          simp only [deliverFile, hread, Option.bind_some, arriving, if_pos
            (show content.bytes.length % 2 ^ 32 < 2 ^ 31 by omega), ← hplain]
        rw [hfiles]
        refine carries_file p.hasKey filename m rfl ?_
        rw [← p.cipher_eq]
        exact hopen
    · have henc := sessionEncrypt_of_neg c.cipher key iv hge hsmall
      refine ⟨_, [filenameMessage filename], by simp only [henc]; rfl, by rw [hname]; exact hout,
        hp₁, ?_⟩
      have hfiles : deliverFile c d filename.bytes = id := by
        funext files
        simp only [deliverFile, hread, Option.bind_some, arriving, if_neg
          (show ¬ content.bytes.length % 2 ^ 32 < 2 ^ 31 by omega), id]
      rw [hfiles]
      exact carries_filename filename

/-- The end of the messages. -/
theorem sendInt_close (hp : Steady w.pace) :
    (sendInt w msgClose).1.output = w.output ++ intToBytes msgClose ∧
      Steady (sendInt w msgClose).1.pace := by
  obtain ⟨w₁, h₁, hout₁, hp₁⟩ := sendAll_steady hp (intToBytes msgClose)
  rw [sendInt, h₁]
  exact ⟨hout₁, hp₁⟩

theorem not_hasPayload_close : ¬ HasPayload msgClose := by decide

theorem sendFiles_carries (p : Paired c d) (hp : Steady w.pace) (key : Bytes sessionKeyLen)
    (iv : Nat → Bytes aesIvLen) (names : List FileName)
    (hs : ∀ filename ∈ names, ∀ content, c.readFile filename.bytes = some content →
      Sealable content.bytes.length) :
    ∃ w' ms rest, sendFiles c key iv names w = some w' ∧
      w'.output = w.output ++ (ms.flatMap Message.wire ++ rest) ∧ Ends rest .closed ∧
      Carries d key ms (deliver c d names) := by
  induction names generalizing w with
  | nil =>
    refine ⟨_, [], intToBytes msgClose ++ [], rfl, ?_, .closed not_hasPayload_close, ?_⟩
    · rw [(sendInt_close hp).1]
      simp
    · exact fun st sw hkey => ⟨st, rfl, hkey, rfl⟩
  | cons filename names ih =>
    obtain ⟨hfirst, hrest⟩ := List.forall_mem_cons.mp hs
    have hdeliver : deliver c d (filename :: names) = fun files =>
        if filename.bytes = minusOne then files
        else if c.isRegular filename.bytes then
          deliver c d names (deliverFile c d filename.bytes files)
        else deliver c d names files := rfl
    rw [hdeliver]
    unfold sendFiles
    by_cases hone : filename.bytes = minusOne
    · obtain ⟨hout, hp'⟩ := sendInt_close hp
      refine ⟨_, [], intToBytes msgClose ++ intToBytes msgClose, if_pos hone, ?_,
        .closed not_hasPayload_close, ?_⟩
      · refine (sendInt_close hp').1.trans ?_
        rw [hout, List.append_assoc]
        rfl
      · exact fun st sw hkey => ⟨st, rfl, hkey, by simp [if_pos hone]⟩
    · by_cases hreg : c.isRegular filename.bytes = true
      · obtain ⟨w₁, ms, h₁, hout, hp₁, hc⟩ :=
          sendFile_carries p hp key (iv names.length) filename hfirst
        obtain ⟨w₂, ms', rest, h₂, hout', he, hc'⟩ := ih hp₁ hrest
        refine ⟨w₂, ms ++ ms', rest, ?_, ?_, he, ?_⟩
        · rw [if_neg hone, if_pos hreg, h₁]
          exact h₂
        · rw [hout', hout, List.flatMap_append, List.append_assoc, List.append_assoc]
        · simp only [if_neg hone, if_pos hreg]
          exact hc.append hc'
      · obtain ⟨w₂, ms', rest, h₂, hout', he, hc'⟩ := ih hp hrest
        refine ⟨w₂, ms', rest, ?_, hout', he, ?_⟩
        · rw [if_neg hone, if_neg hreg]
          exact h₂
        · simpa only [if_neg hone, if_neg hreg] using hc'

/-! ## What stays on the wire -/

theorem sendAll_extends (w : Writer UInt8) (buf : List UInt8) :
    w.output <+: (sendAll w buf).1.output := by
  rcases h : sendAll w buf with ⟨w', ok⟩
  obtain ⟨part, hout, -, -⟩ := sendAll_sent h
  rw [hout]
  exact List.prefix_append _ _

theorem putMessage_extends (w : Writer UInt8) (msgType : UInt64) (payload : List UInt8) :
    w.output <+: (putMessage w msgType payload).output :=
  ((sendAll_extends _ _).trans (sendAll_extends _ _)).trans (sendAll_extends _ _)

theorem sendFile_extends {w' : Writer UInt8} {iv : Bytes aesIvLen} {filename : List UInt8}
    (h : sendFile c key iv filename w = some w') : w.output <+: w'.output := by
  have hname := putMessage_extends w msgFilename filename
  unfold sendFile at h
  rcases hread : c.readFile filename with _ | content
  · simp only [hread] at h
    obtain rfl := Option.some.inj h
    exact hname
  · rcases henc : sessionEncrypt c.cipher key iv content with _ | data | _
    · simp only [hread, henc] at h
      obtain rfl := Option.some.inj h
      exact hname
    · simp only [hread, henc] at h
      obtain rfl := Option.some.inj h
      exact hname.trans (putMessage_extends _ _ _)
    · simp [hread, henc] at h

theorem sendFiles_extends {w' : Writer UInt8} {iv : Nat → Bytes aesIvLen} {names : List FileName}
    (h : sendFiles c key iv names w = some w') : w.output <+: w'.output := by
  induction names generalizing w with
  | nil =>
    obtain rfl := Option.some.inj h
    exact sendAll_extends _ _
  | cons filename names ih =>
    unfold sendFiles at h
    split_ifs at h
    · obtain rfl := Option.some.inj h
      exact (sendAll_extends _ _).trans (sendAll_extends _ _)
    · rcases hfile : sendFile c key (iv names.length) filename.bytes w with _ | w₁
      · simp [hfile] at h
      · rw [hfile] at h
        exact (sendFile_extends hfile).trans (ih h)
    · exact ih h

theorem client_extends {draws : Draws} {names : List FileName} {s : Reader UInt8}
    {w' : Writer UInt8} (h : client c draws names s w = some w') :
    (auth c draws.challenge s w).1.output <+: w'.output := by
  unfold client at h
  rcases hauth : auth c draws.challenge s w with ⟨w₁, _ | serverPubKey⟩
  · simp only [hauth] at h
    obtain rfl := Option.some.inj h
    exact List.prefix_rfl
  · rcases hkey : draws.sessionKey with _ | key
    · simp only [hauth, hkey] at h
      obtain rfl := Option.some.inj h
      exact List.prefix_rfl
    · rcases hblock : serverPubKey true draws.seed key.bytes with _ | encKey
      · simp [hauth, hkey, hblock] at h
      · simp only [hauth, hkey, hblock] at h
        exact (putMessage_extends _ _ _).trans (sendFiles_extends h)

/-- The server takes nothing back that it has written. -/
theorem serve_extends {st' : Server} {w' : Writer UInt8} {s : Reader UInt8}
    (h : serve d st w s = some (st', w')) : w.output <+: w'.output := by
  refine serve_keeps (P := fun _ w' => w.output <+: w'.output) (List.suffix_refl _) ?_
    List.prefix_rfl h
  intro st w₁ msgType payload _ hw
  unfold handle
  split_ifs
  · dsimp only [storeFilename]
    split_ifs
    · exact hw
    · trivial
  · dsimp only [storeFile]
    split_ifs
    · rcases st.decryptData d payload with _ | content | _
      · exact hw
      · dsimp only [writeFile]
        cases cString st.filename.bytes
        · trivial
        · exact hw
      · trivial
    · exact hw
  · dsimp only [answerAuth]
    split_ifs
    · cases d.sign st.signed payload with
      | none => exact hw
      | some sig =>
        have hsig := hw.trans ((sendAll_extends w₁ (intToBytes (.ofNat sig.length))).trans
          (sendAll_extends _ sig))
        cases d.cert with
        | none => exact hsig
        | some cert =>
          exact hsig.trans ((sendAll_extends _ _).trans (sendAll_extends _ _))
    · exact hw
  · dsimp only [storeKey]
    split_ifs
    · cases d.rsa.decryptBlock true payload with
      | none => exact hw
      | some decKey =>
        dsimp only
        split_ifs
        · exact hw
        · exact hw
    · exact hw

/-! ## The handshake -/

/-- What the server answers to a challenge. -/
def reply (sig : List UInt8) (crt : Buffer) : List UInt8 := frame sig ++ frame crt.bytes

def authMessage (challenge : Bytes sessionKeyLen) : Message where
  msgType := msgAuth
  hasPayload := Or.inr (Or.inr (Or.inl rfl))
  payload := challenge.bytes
  length_lt := by
    rw [challenge.length_eq]
    decide

theorem wire_authMessage (challenge : Bytes sessionKeyLen) :
    (authMessage challenge).wire = authRequest challenge := rfl

variable {challenge : Bytes sessionKeyLen} {sig : List UInt8}

theorem auth_steady (c : ClientSetup Cert) (challenge : Bytes sessionKeyLen) (hp : Steady w.pace)
    (s : Reader UInt8) :
    ∃ w', auth c (some challenge) s w = (w', checkServer c challenge s) ∧
      w'.output = w.output ++ authRequest challenge ∧ Steady w'.pace := by
  obtain ⟨w₁, h₁, hout₁, hp₁⟩ := sendAll_steady hp (intToBytes msgAuth)
  obtain ⟨w₂, h₂, hout₂, hp₂⟩ := sendAll_steady hp₁ (intToBytes (.ofNat sessionKeyLen))
  obtain ⟨w₃, h₃, hout₃, hp₃⟩ := sendAll_steady hp₂ challenge.bytes
  refine ⟨w₃, ?_, ?_, hp₃⟩
  · simp only [auth, sendInt, h₁, h₂, h₃]
  · rw [hout₃, hout₂, hout₁, authRequest, frame, challenge.length_eq, List.append_assoc,
      List.append_assoc]

/-- The client accepts the answer of its server, whatever follows it. -/
theorem checkServer_reply (p : Paired c d) {s : Reader UInt8} (hp : Steady s.pace)
    {seed : Nat} (hsig : d.sign seed challenge.bytes = some sig)
    (hverify : c.verifyMessagePss p.cert sig challenge.bytes = true) {extra : List UInt8}
    (hin : s.input = reply sig p.crt ++ extra) :
    checkServer c challenge s = some d.rsa.encryptBlock := by
  have hlen : sig.length < 2 ^ 64 := by
    rw [d.length_sign hsig]
    decide
  rw [reply, List.append_assoc] at hin
  obtain ⟨s₁, h₁, hin₁, hp₁⟩ := receiveMessage_frame hp hlen hin
  obtain ⟨s₂, h₂, -, -⟩ := receiveMessage_frame hp₁ p.crt.length_lt hin₁
  simp only [checkServer, h₁, h₂, p.loads, p.verifies, hverify, p.publicKey_eq]
  rfl

/-- A client that reads the answer of its server sends the key and the files. -/
theorem client_reply (p : Paired c d) {draws : Draws} (hch : draws.challenge = some challenge)
    (hkey : draws.sessionKey = some key) (names : List FileName)
    (hs : ∀ filename ∈ names, ∀ content, c.readFile filename.bytes = some content →
      Sealable content.bytes.length)
    {s : Reader UInt8} (hps : Steady s.pace) (hpw : Steady w.pace) {seed : Nat}
    (hsig : d.sign seed challenge.bytes = some sig)
    (hverify : c.verifyMessagePss p.cert sig challenge.bytes = true) {extra : List UInt8}
    (hin : s.input = reply sig p.crt ++ extra) :
    ∃ w' m ms rest, client c draws names s w = some w' ∧ m.msgType = msgSymkey ∧
      d.rsa.decryptBlock true m.payload = some key.bytes ∧
      w'.output = w.output ++ ((authMessage challenge :: m :: ms).flatMap Message.wire ++ rest) ∧
      Ends rest .closed ∧ Carries d key ms (deliver c d names) := by
  obtain ⟨w₁, hauth, hout₁, hp₁⟩ := auth_steady c challenge hpw s
  rw [checkServer_reply p hps hsig hverify hin] at hauth
  have hfits : key.bytes.length ≤ blockLimit true := by
    rw [key.length_eq]
    decide
  obtain ⟨encKey, henc⟩ := Option.isSome_iff_exists.mp
    (d.rsa.isSome_encryptBlock draws.seed hfits)
  let m : Message :=
    { msgType := msgSymkey
      hasPayload := Or.inr (Or.inr (Or.inr rfl))
      payload := encKey
      length_lt := by
        rw [d.rsa.length_encryptBlock henc]
        decide }
  obtain ⟨hout₂, hp₂⟩ := putMessage_steady hp₁ m
  obtain ⟨w₃, ms, rest, hfiles, hout₃, he, hc⟩ :=
    sendFiles_carries p hp₂ key draws.iv names hs
  refine ⟨w₃, m, ms, rest, ?_, rfl, d.rsa.decryptBlock_encryptBlock henc, ?_, he, hc⟩
  · simp only [client, hch, hauth, hkey, henc]
    exact hfiles
  · rw [hout₃, hout₂, hout₁, List.flatMap_cons, List.flatMap_cons, wire_authMessage]
    simp only [List.append_assoc]

/-- The server answers the challenge. -/
theorem answerAuth_reply (sw : Writer UInt8) (p : Paired c d) (hp : Steady sw.pace)
    (hsig : d.sign st.signed challenge.bytes = some sig) :
    ∃ sw', st.answerAuth d sw challenge.bytes =
        .goOn { st with signed := st.signed + 1 } sw' ∧
      sw'.output = sw.output ++ reply sig p.crt := by
  obtain ⟨w₁, h₁, hout₁, hp₁⟩ := sendAll_steady hp (intToBytes (.ofNat sig.length))
  obtain ⟨w₂, h₂, hout₂, hp₂⟩ := sendAll_steady hp₁ sig
  obtain ⟨w₃, h₃, hout₃, hp₃⟩ := sendAll_steady hp₂ (intToBytes (.ofNat p.crt.bytes.length))
  obtain ⟨w₄, h₄, hout₄, -⟩ := sendAll_steady hp₃ p.crt.bytes
  refine ⟨w₄, ?_, ?_⟩
  · simp only [answerAuth, if_pos p.hasKey, hsig, p.crt_eq, sendInt, h₁, h₂, h₃, h₄]
  · rw [hout₄, hout₃, hout₂, hout₁, reply, frame, frame]
    simp only [List.append_assoc]

/-- The server takes the session key. -/
theorem storeKey_key (hd : d.hasKey = true) {encKey : List UInt8}
    (hdec : d.rsa.decryptBlock true encKey = some key.bytes) :
    st.storeKey d sw encKey = .goOn { st with sessionKey := some key } sw := by
  simp only [storeKey, if_pos hd, hdec, dif_pos key.length_eq]

/-! ## Delivery -/

/-- Both ends have come to their end, and each has read what the other wrote. -/
def Exchange (c : ClientSetup Cert) (d : ServerSetup) (draws : Draws) (names : List FileName)
    (given sent given' sent' : Nat → Nat) (st : Server) (w : Writer UInt8) (st' : Server)
    (sw : Writer UInt8) : Prop :=
  client c draws names ⟨sw.output, given⟩ ⟨[], sent⟩ = some w ∧
    serve d st ⟨[], sent'⟩ ⟨w.output, given'⟩ = some (st', sw)

/-- The server has answered before it reads anything else. -/
theorem reply_extends (p : Paired c d) {draws : Draws} (hch : draws.challenge = some challenge)
    {names : List FileName} {sent given' sent' : Nat → Nat} (hsent : Steady sent)
    (hgiven' : Steady given') (hsent' : Steady sent') {st st' : Server}
    (hsig : d.sign st.signed challenge.bytes = some sig) {s : Reader UInt8} {w sw : Writer UInt8}
    (hclient : client c draws names s ⟨[], sent⟩ = some w)
    (hserve : serve d st ⟨[], sent'⟩ ⟨w.output, given'⟩ = some (st', sw)) :
    reply sig p.crt <+: sw.output := by
  obtain ⟨w₁, hauth, hout₁, -⟩ :=
    auth_steady c challenge (w := ⟨[], sent⟩) hsent s
  have hpre := client_extends hclient
  rw [hch, hauth, hout₁, List.nil_append, ← wire_authMessage] at hpre
  obtain ⟨rest, hrest⟩ := hpre
  obtain ⟨s', hturn, -, -⟩ := turn_message (s := ⟨w.output, given'⟩) hgiven' d st ⟨[], sent'⟩
    hrest.symm
  obtain ⟨sw₁, hhandle, hreply⟩ := answerAuth_reply ⟨[], sent'⟩ p hsent' hsig
  rw [serve_eq hturn, authMessage] at hserve
  dsimp only at hserve
  rw [handle_auth, hhandle] at hserve
  rw [List.nil_append] at hreply
  exact hreply ▸ serve_extends hserve

section Delivery

variable (p : Paired c d) {draws : Draws} (hch : draws.challenge = some challenge)
  (hkey : draws.sessionKey = some key) (names : List FileName)
  (hs : ∀ filename ∈ names, ∀ content, c.readFile filename.bytes = some content →
    Sealable content.bytes.length)
  {given sent given' sent' : Nat → Nat} (hgiven : Steady given) (hsent : Steady sent)
  (hgiven' : Steady given') (hsent' : Steady sent')
include p hch hkey hs hgiven hsent hgiven' hsent'

/-- If the client reads the answer of the server, the server answers just that and has the
files. -/
theorem exchange_of_reply (st : Server) (hsig : d.sign st.signed challenge.bytes = some sig)
    (hverify : c.verifyMessagePss p.cert sig challenge.bytes = true) {toClient extra : List UInt8}
    (hin : toClient = reply sig p.crt ++ extra) :
    ∃ w st' sw, client c draws names ⟨toClient, given⟩ ⟨[], sent⟩ = some w ∧
      serve d st ⟨[], sent'⟩ ⟨w.output, given'⟩ = some (st', sw) ∧
      sw.output = reply sig p.crt ∧ st'.files = deliver c d names st.files := by
  obtain ⟨w, m, ms, rest, hclient, hm, hdec, hout, he, hc⟩ :=
    client_reply p hch hkey names hs (s := ⟨toClient, given⟩) (w := ⟨[], sent⟩) hgiven hsent hsig
      hverify hin
  obtain ⟨sw, hauth, hreply⟩ := answerAuth_reply ⟨[], sent'⟩ p hsent' hsig
  obtain ⟨st', hall, -, hfiles⟩ :=
    hc { st with signed := st.signed + 1, sessionKey := some key } sw rfl
  refine ⟨w, st', sw, hclient, ?_, hreply, hfiles⟩
  rw [serve_outcome hgiven' hout he, outcome, handleAll, authMessage]
  dsimp only
  rw [handle_auth, hauth]
  dsimp only
  rw [handleAll, hm, handle_symkey, storeKey_key p.hasKey hdec]
  dsimp only
  rw [hall]
  rfl

end Delivery

/-- Client and server can talk to each other to the end, if the files have lengths that
`session_encrypt` can deal with; and however the connection cuts up what they say, the server then
holds what arrives of every file that was typed in, the latest one under each path. -/
theorem transfer_delivers (p : Paired c d) (draws : Draws) (names : List FileName)
    (given sent given' sent' : Nat → Nat) (st : Server)
    (hch : draws.challenge.isSome) (hkey : draws.sessionKey.isSome)
    (hs : ∀ filename ∈ names, ∀ content, c.readFile filename.bytes = some content →
      Sealable content.bytes.length)
    (hgiven : Steady given) (hsent : Steady sent) (hgiven' : Steady given')
    (hsent' : Steady sent') :
    (∃ w st' sw, Exchange c d draws names given sent given' sent' st w st' sw) ∧
      ∀ w st' sw, Exchange c d draws names given sent given' sent' st w st' sw →
        st'.files = deliver c d names st.files := by
  obtain ⟨challenge, hch⟩ := Option.isSome_iff_exists.mp hch
  obtain ⟨key, hkey⟩ := Option.isSome_iff_exists.mp hkey
  obtain ⟨sig, hsig, hverify⟩ := p.signs st.signed challenge
  constructor
  · obtain ⟨w, st', sw, hclient, hserve, hout, -⟩ :=
      exchange_of_reply p hch hkey names hs hgiven hsent hgiven' hsent' st hsig hverify
        (List.append_nil _).symm
    refine ⟨w, st', sw, ?_, hserve⟩
    rw [hout]
    exact hclient
  · rintro w st' sw ⟨hclient, hserve⟩
    obtain ⟨extra, hextra⟩ :=
      reply_extends p hch hsent hgiven' hsent' hsig hclient hserve
    obtain ⟨w₁, st₁, sw₁, hclient₁, hserve₁, -, hfiles⟩ :=
      exchange_of_reply p hch hkey names hs hgiven hsent hgiven' hsent' st hsig hverify
        hextra.symm
    obtain rfl := Option.some.inj (hclient.symm.trans hclient₁)
    obtain ⟨rfl, -⟩ := Prod.mk.inj (Option.some.inj (hserve.symm.trans hserve₁))
    exact hfiles

/-- A client that trusts every certificate, with one file `a`. -/
def ClientSetup.clear : ClientSetup Unit where
  loadCert _ _ := some ()
  verifyServerCert _ := true
  verifyMessagePss _ _ _ := true
  publicKey _ := some Rsa.clear.encryptBlock
  cipher := paddingOnly
  isRegular filename := filename = [97]
  readFile filename := if filename = [97] then some ⟨[1, 2, 3], by decide⟩ else none

def Paired.clear : Paired ClientSetup.clear ServerSetup.clear where
  cert := ()
  crt := ⟨[], Nat.two_pow_pos 64⟩
  cipher_eq := rfl
  hasKey := rfl
  crt_eq := rfl
  loads := rfl
  verifies := rfl
  publicKey_eq := rfl
  signs _ _ := ⟨List.replicate rsaKeyBytes 0, rfl, rfl⟩

/-- Nothing but zeros is drawn. -/
def Draws.zeros : Draws where
  challenge := some ⟨List.replicate sessionKeyLen 0, List.length_replicate⟩
  sessionKey := some ⟨List.replicate sessionKeyLen 0, List.length_replicate⟩
  seed := 0
  iv _ := ⟨List.replicate aesIvLen 0, List.length_replicate⟩

/-- The file `a` is sent byte by byte. -/
theorem transfer_delivers_bytewise :
    (∃ w st' sw, Exchange .clear .clear .zeros [⟨[97], by decide, by decide⟩] (fun _ => 1)
      (fun _ => 1) (fun _ => 1) (fun _ => 1) .blank w st' sw) ∧
      ∀ w st' sw, Exchange .clear .clear .zeros [⟨[97], by decide, by decide⟩] (fun _ => 1)
        (fun _ => 1) (fun _ => 1) (fun _ => 1) .blank w st' sw →
          st'.files (outPath [97]) = some [1, 2, 3] := by
  have hsteady : Steady fun _ => 1 := fun _ => Nat.one_pos
  have hs : ∀ filename ∈ [(⟨[97], by decide, by decide⟩ : FileName)], ∀ content,
      ClientSetup.clear.readFile filename.bytes = some content →
        Sealable content.bytes.length := by
    intro filename _ content h
    simp only [ClientSetup.clear] at h
    split_ifs at h
    obtain rfl := Option.some.inj h
    exact Or.inl (by decide)
  obtain ⟨hex, hall⟩ := transfer_delivers Paired.clear .zeros [⟨[97], by decide, by decide⟩]
    (fun _ => 1) (fun _ => 1) (fun _ => 1) (fun _ => 1) .blank rfl rfl hs hsteady hsteady hsteady
    hsteady
  refine ⟨hex, fun w st' sw he => ?_⟩
  rw [hall w st' sw he]
  rfl

end Corestack.Tetrissh
