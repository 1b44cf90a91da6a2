import Corestack.Tetrissh.Server

/-! # The file client

The client makes the server prove who it is, sends it a session key and then the
files that are asked for.
-/

namespace Corestack.Tetrissh

open Socket

/-- Encryption with the public key of a certificate. -/
abbrev PublicKey := Bool → Nat → List UInt8 → Option (List UInt8)

/-- What OpenSSL and the disk of the client answer. -/
structure ClientSetup (Cert : Type) where
  loadCert : List UInt8 → Int → Option Cert
  /-- Against `auth/cacsertificate.crt`. -/
  verifyServerCert : Cert → Bool
  verifyMessagePss : Cert → List UInt8 → List UInt8 → Bool
  publicKey : Cert → Option PublicKey
  cipher : Cipher
  isRegular : List UInt8 → Bool
  readFile : List UInt8 → Option Buffer

/-- The random bytes of a run; `none` where none could be drawn. -/
structure Draws where
  challenge : Option (Bytes sessionKeyLen)
  sessionKey : Option (Bytes sessionKeyLen)
  seed : Nat
  iv : Nat → Bytes aesIvLen

/-- A name as `fgets` reads it into `filename`, without its newline. -/
structure FileName where
  bytes : List UInt8
  zero_notMem : 0 ∉ bytes
  length_lt : bytes.length < pathSize

/-- `-1` -/
def minusOne : List UInt8 := [45, 49]

variable {Cert : Type} (c : ClientSetup Cert)

/-! ## Authentication -/

/-- The answer to the challenge: the signature, then the certificate. -/
def checkServer (challenge : Bytes sessionKeyLen) (s : Reader UInt8) : Option PublicKey :=
  match receiveMessage s with
  | (_, none) => none
  | (s, some sig) =>
    match receiveMessage s with
    | (_, none) => none
    | (_, some crt) =>
      match c.loadCert crt (toInt crt.length) with
      | none => none
      | some cert =>
        if !c.verifyServerCert cert then none
        else if !c.verifyMessagePss cert sig challenge.bytes then none
        else c.publicKey cert

/-- The key of the server is `none` where the source returns `-1`. -/
def auth (challenge : Option (Bytes sessionKeyLen)) (s : Reader UInt8) (w : Writer UInt8) :
    Writer UInt8 × Option PublicKey :=
  match challenge with
  | none => (w, none)
  | some challenge =>
    match sendInt w msgAuth with
    | (w, false) => (w, none)
    | (w, true) =>
      match sendInt w (.ofNat sessionKeyLen) with
      | (w, false) => (w, none)
      | (w, true) =>
        match sendAll w challenge.bytes with
        | (w, false) => (w, none)
        | (w, true) => (w, checkServer c challenge s)

/-! ## Sending files -/

/-- A message of any type; nobody looks at whether it goes out. -/
def putMessage (w : Writer UInt8) (msgType : UInt64) (payload : List UInt8) : Writer UInt8 :=
  let (w, _) := sendInt w msgType
  let (w, _) := sendInt w (.ofNat payload.length)
  let (w, _) := sendAll w payload
  w

/-- One file; `none` where `session_encrypt` is undefined. -/
def sendFile (key : Bytes sessionKeyLen) (iv : Bytes aesIvLen) (filename : List UInt8)
    (w : Writer UInt8) : Option (Writer UInt8) :=
  let w := putMessage w msgFilename filename
  match c.readFile filename with
  | none => some w
  | some fileData =>
    match sessionEncrypt c.cipher key iv fileData with
    | .undefined => none
    | .null => some w
    | .token encData => some (putMessage w msgFileData encData)

/-- The loop over the names that are typed in. A name of no regular file is asked for again. -/
def sendFiles (key : Bytes sessionKeyLen) (iv : Nat → Bytes aesIvLen) :
    List FileName → Writer UInt8 → Option (Writer UInt8)
  | [], w => some (sendInt w msgClose).1
  | filename :: rest, w =>
    if filename.bytes = minusOne then
      let (w, _) := sendInt w msgClose
      some (sendInt w msgClose).1
    else if c.isRegular filename.bytes then
      match sendFile c key (iv rest.length) filename.bytes w with
      | none => none
      | some w => sendFiles key iv rest w
    else sendFiles key iv rest w

/-- The client over the names that are typed in; `none` where its behaviour is undefined. -/
def client (draws : Draws) (names : List FileName) (s : Reader UInt8) (w : Writer UInt8) :
    Option (Writer UInt8) :=
  match auth c draws.challenge s w with
  | (w, none) => some w
  | (w, some serverPubKey) =>
    match draws.sessionKey with
    | none => some w
    | some key =>
      match serverPubKey true draws.seed key.bytes with
      -- `NULL` is sent
      | none => none
      | some encKey => sendFiles c key draws.iv names (putMessage w msgSymkey encKey)

/-! ## Only to the server -/

/-- The challenge on the wire. -/
def authRequest (challenge : Bytes sessionKeyLen) : List UInt8 :=
  intToBytes msgAuth ++ frame challenge.bytes

/-- A part of the start of `buf` has gone out, and all of it if nothing has failed. -/
def Sent (w : Writer UInt8) (buf : List UInt8) (w' : Writer UInt8) (ok : Bool) : Prop :=
  ∃ part, w'.output = w.output ++ part ∧ part <+: buf ∧ (ok = true → part = buf)

variable {c} {w w₁ w₂ : Writer UInt8} {buf buf' : List UInt8} {ok ok' : Bool}

theorem Sent.refl (w : Writer UInt8) (buf : List UInt8) : Sent w buf w false :=
  ⟨[], (List.append_nil _).symm, List.nil_prefix, nofun⟩

theorem Sent.stop (h : Sent w buf w₁ ok) : Sent w (buf ++ buf') w₁ false := by
  obtain ⟨part, hout, hpart, -⟩ := h
  exact ⟨part, hout, hpart.trans (List.prefix_append _ _), nofun⟩

theorem Sent.trans (h : Sent w buf w₁ true) (h' : Sent w₁ buf' w₂ ok) :
    Sent w (buf ++ buf') w₂ ok := by
  obtain ⟨part, hout, -, hall⟩ := h
  obtain rfl := hall rfl
  obtain ⟨part', hout', hpart', hall'⟩ := h'
  refine ⟨part ++ part', ?_, (List.prefix_append_right_inj _).mpr hpart', fun hok => ?_⟩
  · rw [hout', hout, List.append_assoc]
  · rw [hall' hok]

theorem sendAllFrom_sent {totalSent : Nat} (h : sendAllFrom w buf totalSent = (w₁, ok)) :
    Sent w (buf.drop totalSent) w₁ ok := by
  fun_induction sendAllFrom w buf totalSent with
  | case1 w totalSent hlt w₂ n hs hn =>
    obtain ⟨rfl, rfl⟩ := Prod.mk.inj h
    obtain ⟨hout, -, -⟩ := Writer.send_eq hs
    exact ⟨_, hout, List.take_prefix _ _, fun hok => absurd hok Bool.false_ne_true⟩
  | case2 w totalSent hlt w₂ n hs hn ih =>
    obtain ⟨hout, -, -⟩ := Writer.send_eq hs
    have hfirst : Sent w ((buf.drop totalSent).take n) w₂ true :=
      ⟨_, hout, List.prefix_rfl, fun _ => rfl⟩
    have hall := hfirst.trans (ih h)
    rwa [← List.drop_drop, List.take_append_drop] at hall
  | case3 w totalSent hge =>
    obtain ⟨rfl, rfl⟩ := Prod.mk.inj h
    rw [List.drop_of_length_le (by omega)]
    exact ⟨[], (List.append_nil _).symm, List.nil_prefix, fun _ => rfl⟩

theorem sendAll_sent (h : sendAll w buf = (w₁, ok)) : Sent w buf w₁ ok :=
  sendAllFrom_sent h

/-- The challenge is all that goes out before the server has answered. -/
theorem auth_sent {challenge : Bytes sessionKeyLen} {s : Reader UInt8} {key : Option PublicKey}
    (h : auth c (some challenge) s w = (w₁, key)) :
    (∃ ok, Sent w (authRequest challenge) w₁ ok) ∧
      (key = none ∨ key = checkServer c challenge s) := by
  unfold auth at h
  unfold authRequest
  have hlen : frame challenge.bytes = intToBytes (.ofNat sessionKeyLen) ++ challenge.bytes := by
    rw [frame, challenge.length_eq]
  rw [hlen]
  rcases htype : sendInt w msgAuth with ⟨w₂, _ | _⟩
  · simp only [htype] at h
    obtain ⟨rfl, rfl⟩ := Prod.mk.inj h
    exact ⟨⟨_, (sendAll_sent htype).stop⟩, Or.inl rfl⟩
  · rcases hlength : sendInt w₂ (.ofNat sessionKeyLen) with ⟨w₃, _ | _⟩
    · simp only [htype, hlength] at h
      obtain ⟨rfl, rfl⟩ := Prod.mk.inj h
      exact ⟨⟨_, (sendAll_sent htype).trans (sendAll_sent hlength).stop⟩, Or.inl rfl⟩
    · rcases hbytes : sendAll w₃ challenge.bytes with ⟨w₄, ok⟩
      have hsent := (sendAll_sent htype).trans ((sendAll_sent hlength).trans (sendAll_sent hbytes))
      cases ok with
      | false =>
        simp only [htype, hlength, hbytes] at h
        obtain ⟨rfl, rfl⟩ := Prod.mk.inj h
        exact ⟨⟨_, hsent⟩, Or.inl rfl⟩
      | true =>
        simp only [htype, hlength, hbytes] at h
        obtain ⟨rfl, rfl⟩ := Prod.mk.inj h
        exact ⟨⟨_, hsent⟩, Or.inr rfl⟩

/-- A signature and a certificate that stand at the start of a stream and pass the checks. -/
def Proves (c : ClientSetup Cert) (challenge : Bytes sessionKeyLen) (input : List UInt8) : Prop :=
  ∃ sigLen sig crtLen crt rest cert,
    input = intToBytes sigLen ++ sig ++ (intToBytes crtLen ++ crt) ++ rest ∧
      sig.length = sigLen.toNat ∧ crt.length = crtLen.toNat ∧
      c.loadCert crt (toInt crt.length) = some cert ∧ c.verifyServerCert cert = true ∧
      c.verifyMessagePss cert sig challenge.bytes = true

theorem receiveMessage_some {s s' : Reader UInt8} {m : List UInt8}
    (h : receiveMessage s = (s', some m)) :
    ∃ n : UInt64, s.input = intToBytes n ++ m ++ s'.input ∧ m.length = n.toNat := by
  unfold receiveMessage at h
  rcases hlen : readBytes s 8 with ⟨s₁, _ | buf⟩
  · simp [hlen] at h
  · simp only [hlen] at h
    obtain ⟨hin, hbuf⟩ := readBytes_some hlen
    obtain ⟨hin', hm⟩ := readBytes_some h
    refine ⟨bytesToInt buf, ?_, hm⟩
    rw [intToBytes_bytesToInt hbuf, hin, hin', List.append_assoc]

theorem proves_of_checkServer {challenge : Bytes sessionKeyLen} {s : Reader UInt8}
    {key : PublicKey} (h : checkServer c challenge s = some key) : Proves c challenge s.input := by
  unfold checkServer at h
  rcases hsig : receiveMessage s with ⟨s₁, _ | sig⟩
  · simp [hsig] at h
  rcases hcrt : receiveMessage s₁ with ⟨s₂, _ | crt⟩
  · simp [hsig, hcrt] at h
  rcases hcert : c.loadCert crt (toInt crt.length) with _ | cert
  · simp [hsig, hcrt, hcert] at h
  simp only [hsig, hcrt, hcert] at h
  split_ifs at h with hverify hmessage
  obtain ⟨sigLen, hin, hsigLen⟩ := receiveMessage_some hsig
  obtain ⟨crtLen, hin', hcrtLen⟩ := receiveMessage_some hcrt
  refine ⟨sigLen, sig, crtLen, crt, s₂.input, cert, ?_, hsigLen, hcrtLen, hcert, ?_, ?_⟩
  · rw [hin, hin', ← List.append_assoc]
  · simpa using hverify
  · simpa using hmessage

/-- Whatever the client reads, and however its connection behaves: unless a certificate that
verifies and a signature of the challenge under it stand at the start of the stream, nothing but
the challenge goes out, no key and no file; and nothing at all if there is no challenge. -/
theorem client_authenticates (c : ClientSetup Cert) (draws : Draws) (names : List FileName)
    (s : Reader UInt8) (w : Writer UInt8) :
    (∃ challenge, draws.challenge = some challenge ∧ Proves c challenge s.input) ∨
      ∃ w' part, client c draws names s w = some w' ∧ w'.output = w.output ++ part ∧
        (draws.challenge = none → part = []) ∧
        ∀ challenge, draws.challenge = some challenge → part <+: authRequest challenge := by
  rcases hch : draws.challenge with _ | challenge
  · refine Or.inr ⟨w, [], ?_, (List.append_nil _).symm, fun _ => rfl, by simp⟩
    simp only [client, hch, auth]
  · rcases hauth : auth c (some challenge) s w with ⟨w₁, key⟩
    obtain ⟨⟨ok, part, hout, hpart, -⟩, hkey⟩ := auth_sent hauth
    cases key with
    | none =>
      refine Or.inr ⟨w₁, part, ?_, hout, nofun, ?_⟩
      · simp only [client, hch, hauth]
      · intro ch heq
        exact Option.some.inj heq ▸ hpart
    | some key =>
      have hcheck : checkServer c challenge s = some key := by
        rcases hkey with h | h
        · cases h
        · exact h.symm
      exact Or.inl ⟨challenge, rfl, proves_of_checkServer hcheck⟩

end Corestack.Tetrissh
