import Mathlib.Data.List.Induction
import Corestack.Socket.Stream

/-! # Messages on a socket

The helpers of `common.c` that send a message as its length and its bytes. The
socket may take and give the bytes in pieces of any sizes.
-/

namespace Corestack.Tetrissh

open Socket

/-! ## Integers -/

def intBytes : Nat := 8

/-- The loop of `int_to_bytes`, from `buf[i - 1]` down to `buf[0]`; `buf` is what stands behind. -/
def intToBytesFrom : Nat → UInt64 → List UInt8 → List UInt8
  | 0, _, buf => buf
  | i + 1, x, buf => intToBytesFrom i (x >>> 8) ((x &&& 0xFF).toUInt8 :: buf)

/-- Big-endian encoding. -/
def intToBytes (x : UInt64) : List UInt8 := intToBytesFrom intBytes x []

/-- One turn of the loop of `bytes_to_int`. -/
def addByte (result : UInt64) (b : UInt8) : UInt64 := (result <<< 8) ||| b.toUInt64

/-- Big-endian decoding. -/
def bytesToInt (buf : List UInt8) : UInt64 := buf.foldl addByte 0

theorem length_intToBytesFrom (n : Nat) (x : UInt64) (buf : List UInt8) :
    (intToBytesFrom n x buf).length = n + buf.length := by
  induction n generalizing x buf with
  | zero => simp [intToBytesFrom]
  | succ n ih =>
    rw [intToBytesFrom, ih, List.length_cons]
    omega

theorem length_intToBytes (x : UInt64) : (intToBytes x).length = 8 :=
  length_intToBytesFrom 8 x []

theorem length_intToBytes_eq (x : UInt64) : (intToBytes x).length = (8 : UInt64).toNat :=
  length_intToBytes x

theorem toNat_shiftRight_eight (x : UInt64) : (x >>> 8).toNat = x.toNat / 256 := by
  rw [UInt64.toNat_shiftRight, Nat.shiftRight_eq_div_pow]
  rfl

/-- The last byte of a number goes back to its place. -/
theorem addByte_last (x : UInt64) : addByte (x >>> 8) (x &&& 0xFF).toUInt8 = x := by
  have hbyte : (x &&& 0xFF).toUInt8.toUInt64.toNat = x.toNat % 2 ^ 8 := by
    simp only [UInt8.toNat_toUInt64, UInt64.toNat_toUInt8, UInt64.toNat_and]
    rw [show (0xFF : UInt64).toNat = 2 ^ 8 - 1 from rfl, Nat.and_two_pow_sub_one_eq_mod,
      Nat.mod_mod]
  have hshift : ((x >>> 8) <<< 8).toNat = x.toNat / 2 ^ 8 * 2 ^ 8 := by
    have hlt := x.toNat_lt
    have h8 : (8 : UInt64).toNat % 64 = 8 := rfl
    have hle : x.toNat / 2 ^ 8 * 2 ^ 8 ≤ x.toNat := Nat.div_mul_le_self _ _
    rw [UInt64.toNat_shiftLeft, h8, toNat_shiftRight_eight, Nat.shiftLeft_eq]
    exact Nat.mod_eq_of_lt (Nat.lt_of_le_of_lt hle hlt)
  apply UInt64.toNat_inj.mp
  rw [addByte, UInt64.toNat_or, hbyte, hshift, ← Nat.shiftLeft_eq,
    ← Nat.shiftLeft_add_eq_or_of_lt (Nat.mod_lt _ (by decide)), Nat.shiftLeft_eq]
  exact Nat.div_add_mod' _ _

/-- Decoding takes up where the encoding of the upper bytes leaves off. -/
theorem foldl_intToBytesFrom (n : Nat) (x acc : UInt64) (buf : List UInt8)
    (h : acc.toNat = x.toNat / 256 ^ n) :
    (intToBytesFrom n x buf).foldl addByte acc = buf.foldl addByte x := by
  induction n generalizing x buf with
  | zero =>
    obtain rfl : acc = x := UInt64.toNat_inj.mp (by simpa using h)
    rfl
  | succ n ih =>
    have hacc : acc.toNat = (x >>> 8).toNat / 256 ^ n := by
      rw [h, toNat_shiftRight_eight, Nat.div_div_eq_div_mul, Nat.pow_succ']
    rw [intToBytesFrom, ih _ _ hacc, List.foldl_cons, addByte_last]

theorem bytesToInt_intToBytes (x : UInt64) : bytesToInt (intToBytes x) = x := by
  apply foldl_intToBytesFrom
  exact (Nat.div_eq_of_lt x.toNat_lt).symm

theorem toNat_addByte {x : UInt64} (b : UInt8) (h : x.toNat < 2 ^ 56) :
    (addByte x b).toNat = x.toNat * 2 ^ 8 + b.toNat := by
  have hb := b.toNat_lt
  have h8 : (8 : UInt64).toNat % 64 = 8 := rfl
  have hshift : (x <<< 8).toNat = x.toNat <<< 8 := by
    rw [UInt64.toNat_shiftLeft, h8, Nat.shiftLeft_eq]
    exact Nat.mod_eq_of_lt (by omega)
  rw [addByte, UInt64.toNat_or, hshift, UInt8.toNat_toUInt64, ← Nat.shiftLeft_add_eq_or_of_lt hb,
    Nat.shiftLeft_eq]

theorem toNat_foldl_addByte_lt {buf : List UInt8} (h : buf.length ≤ 7) :
    (buf.foldl addByte 0).toNat < 256 ^ buf.length := by
  induction buf using List.reverseRecOn with
  | nil => decide
  | append_singleton buf b ih =>
    rw [List.length_append, List.length_singleton] at h ⊢
    have hlt := ih (by omega)
    have hpow : 256 ^ buf.length ≤ 256 ^ 6 := Nat.pow_le_pow_right (by decide) (by omega)
    have hb := b.toNat_lt
    rw [List.foldl_append, List.foldl_cons, List.foldl_nil, toNat_addByte b (by omega),
      Nat.pow_succ]
    omega

/-- Encoding takes back what decoding of as many bytes has made. -/
theorem intToBytesFrom_foldl (buf : List UInt8) (rest : List UInt8) (h : buf.length ≤ 8) :
    intToBytesFrom buf.length (buf.foldl addByte 0) rest = buf ++ rest := by
  induction buf using List.reverseRecOn generalizing rest with
  | nil => rfl
  | append_singleton buf b ih =>
    rw [List.length_append, List.length_singleton] at h
    set x := buf.foldl addByte 0 with hx
    have hlt : x.toNat < 2 ^ 56 := by
      have hle : 256 ^ buf.length ≤ 256 ^ 7 := Nat.pow_le_pow_right (by decide) (by omega)
      exact Nat.lt_of_lt_of_le (toNat_foldl_addByte_lt (by omega)) hle
    have hadd := toNat_addByte b hlt
    have hb := b.toNat_lt
    have hshift : addByte x b >>> 8 = x := by
      apply UInt64.toNat_inj.mp
      rw [toNat_shiftRight_eight, hadd]
      omega
    have hlow : (addByte x b &&& 0xFF).toUInt8 = b := by
      apply UInt8.toNat_inj.mp
      rw [UInt64.toNat_toUInt8, UInt64.toNat_and, show (0xFF : UInt64).toNat = 2 ^ 8 - 1 from rfl,
        Nat.and_two_pow_sub_one_eq_mod, hadd]
      omega
    rw [List.length_append, List.length_singleton, List.foldl_append, List.foldl_cons,
      List.foldl_nil, ← hx, intToBytesFrom, hshift, hlow, hx, ih (b :: rest) (by omega),
      List.append_assoc]
    rfl

theorem intToBytes_bytesToInt {buf : List UInt8} (h : buf.length = 8) :
    intToBytes (bytesToInt buf) = buf := by
  have := intToBytesFrom_foldl buf [] (Nat.le_of_eq h)
  rwa [h, List.append_nil] at this

/-! ## Reading and writing -/

/-- Read in chunks of up to 1024 bytes. -/
def chunkSize (remaining : Nat) : Nat := if remaining < 1024 then remaining else 1024

/-- The loop of `read_bytes`, with the bytes received so far. -/
def readBytesFrom (s : Reader UInt8) (length : Nat) (buffer : List UInt8) :
    Reader UInt8 × Option (List UInt8) :=
  if buffer.length < length then
    match s.recv (chunkSize (length - buffer.length)) with
    | (s, bytes) =>
      if bytes.length ≤ 0 then (s, none) else readBytesFrom s length (buffer ++ bytes)
  else (s, some buffer)
termination_by length - buffer.length
decreasing_by
  rw [List.length_append]
  omega

/-- `none` is `NULL`. The allocation of the buffer succeeds. -/
def readBytes (s : Reader UInt8) (length : UInt64) : Reader UInt8 × Option (List UInt8) :=
  readBytesFrom s length.toNat []

/-- The loop of `send_all`, from `buf[total_sent]` on. -/
def sendAllFrom (s : Writer UInt8) (buf : List UInt8) (totalSent : Nat) : Writer UInt8 × Bool :=
  if totalSent < buf.length then
    match s.send (buf.drop totalSent) with
    | (s, n) => if n ≤ 0 then (s, false) else sendAllFrom s buf (totalSent + n)
  else (s, true)
termination_by buf.length - totalSent

/-- The flag is `false` where the source returns `-1`. -/
def sendAll (s : Writer UInt8) (buf : List UInt8) : Writer UInt8 × Bool := sendAllFrom s buf 0

def sendInt (s : Writer UInt8) (value : UInt64) : Writer UInt8 × Bool :=
  sendAll s (intToBytes value)

/-! ## One read and one write -/

variable {s s' : Reader UInt8} {length : Nat} {buffer bytes : List UInt8}

theorem chunkSize_le (remaining : Nat) : chunkSize remaining ≤ remaining := by
  unfold chunkSize
  split_ifs <;> omega

theorem chunkSize_pos {remaining : Nat} (h : 0 < remaining) : 0 < chunkSize remaining := by
  unfold chunkSize
  split_ifs <;> omega

/-- What has been read stood at the start of the stream, and is as long as asked for. -/
theorem readBytesFrom_some (hb : buffer.length ≤ length)
    (h : readBytesFrom s length buffer = (s', some bytes)) :
    buffer ++ s.input = bytes ++ s'.input ∧ bytes.length = length := by
  fun_induction readBytesFrom s length buffer with
  | case1 => simp at h
  | case2 s buffer hlt s₁ items hr hpos ih =>
    obtain ⟨hin, hle⟩ := Reader.recv_eq hr
    have hchunk := chunkSize_le (length - buffer.length)
    have hle' : (buffer ++ items).length ≤ length := by
      rw [List.length_append]
      omega
    obtain ⟨hin', hlen⟩ := ih hle' h
    refine ⟨?_, hlen⟩
    rw [← hin', ← hin, List.append_assoc]
  | case3 s buffer hge =>
    obtain ⟨rfl, hbytes⟩ := Prod.mk.inj h
    obtain rfl := Option.some.inj hbytes
    exact ⟨rfl, by omega⟩

/-- On a steady stream a read fails only where the stream ends too early. -/
theorem readBytesFrom_steady (hp : Steady s.pace)
    (hin : length ≤ buffer.length + s.input.length) :
    ∃ s' bytes, readBytesFrom s length buffer = (s', some bytes) ∧ Steady s'.pace := by
  fun_induction readBytesFrom s length buffer with
  | case1 s buffer hlt s₁ items hr hnil =>
    have hchunk := chunkSize_pos (Nat.sub_pos_of_lt hlt)
    have hne : s.input ≠ [] := List.ne_nil_of_length_pos (by omega)
    have hpos := List.length_pos_iff.mpr (Reader.recv_ne_nil hr hp hchunk hne)
    omega
  | case2 s buffer hlt s₁ items hr hpos ih =>
    have hlen := congrArg List.length (Reader.recv_eq hr).1
    rw [List.length_append] at hlen
    apply ih
    · rw [Reader.recv_pace hr]
      exact hp.tail
    · rw [List.length_append]
      omega
  | case3 s buffer hge => exact ⟨s, buffer, rfl, hp⟩

/-- A buffer is never short, whatever the socket does. -/
theorem readBytes_some {n : UInt64} (h : readBytes s n = (s', some bytes)) :
    s.input = bytes ++ s'.input ∧ bytes.length = n.toNat :=
  readBytesFrom_some (Nat.zero_le _) h

theorem readBytes_of_lt {n : UInt64} (h : s.input.length < n.toNat) :
    ∃ s', readBytes s n = (s', none) := by
  rcases hr : readBytes s n with ⟨s', _ | bytes⟩
  · exact ⟨s', rfl⟩
  · obtain ⟨hin, hlen⟩ := readBytes_some hr
    rw [hin, List.length_append] at h
    omega

theorem readBytes_append {n : UInt64} {rest : List UInt8} (hp : Steady s.pace)
    (hin : s.input = bytes ++ rest) (hn : bytes.length = n.toNat) :
    ∃ s', readBytes s n = (s', some bytes) ∧ s'.input = rest ∧ Steady s'.pace := by
  have hle : n.toNat ≤ ([] : List UInt8).length + s.input.length := by
    rw [hin, List.length_append]
    omega
  obtain ⟨s', bytes', hr, hp'⟩ := readBytesFrom_steady hp hle
  obtain ⟨hin', hlen⟩ := readBytes_some hr
  obtain ⟨rfl, hrest⟩ := List.append_inj (hin.symm.trans hin') (hn.trans hlen.symm)
  exact ⟨s', hr, hrest.symm, hp'⟩

theorem sendAllFrom_steady {s : Writer UInt8} {buf : List UInt8} {totalSent : Nat}
    (hp : Steady s.pace) (hle : totalSent ≤ buf.length) :
    ∃ s', sendAllFrom s buf totalSent = (s', true) ∧
      s'.output = s.output ++ buf.drop totalSent ∧ Steady s'.pace := by
  fun_induction sendAllFrom s buf totalSent with
  | case1 s totalSent hlt s₁ n hs hn =>
    have hne : buf.drop totalSent ≠ [] := by
      apply List.ne_nil_of_length_pos
      rw [List.length_drop]
      omega
    have hpos := Writer.send_pos hs hp hne
    omega
  | case2 s totalSent hlt s₁ n hs hn ih =>
    obtain ⟨hout, hpace, hn'⟩ := Writer.send_eq hs
    rw [List.length_drop] at hn'
    obtain ⟨s', hr, hout', hp'⟩ := ih (by rw [hpace]; exact hp.tail) (by omega)
    refine ⟨s', hr, ?_, hp'⟩
    rw [hout', hout, List.append_assoc, ← List.drop_drop, List.take_append_drop]
  | case3 s totalSent hge =>
    refine ⟨s, rfl, ?_, hp⟩
    rw [List.drop_of_length_le (by omega), List.append_nil]

/-- On a steady stream everything is sent. -/
theorem sendAll_steady {s : Writer UInt8} (hp : Steady s.pace) (buf : List UInt8) :
    ∃ s', sendAll s buf = (s', true) ∧ s'.output = s.output ++ buf ∧ Steady s'.pace :=
  sendAllFrom_steady hp (Nat.zero_le _)

/-! ## Messages -/

/-- A message goes out as its length and its bytes. -/
def sendMessage (s : Writer UInt8) (m : List UInt8) : Writer UInt8 × Bool :=
  match sendInt s (.ofNat m.length) with
  | (s, true) => sendAll s m
  | (s, false) => (s, false)

def sendMessages (s : Writer UInt8) : List (List UInt8) → Writer UInt8 × Bool
  | [] => (s, true)
  | m :: ms =>
    match sendMessage s m with
    | (s, true) => sendMessages s ms
    | (s, false) => (s, false)

/-- A message comes in as its length and its bytes. -/
def receiveMessage (s : Reader UInt8) : Reader UInt8 × Option (List UInt8) :=
  match readBytes s 8 with
  | (s, some buf) => readBytes s (bytesToInt buf)
  | (s, none) => (s, none)

/-- Receive `n` messages. The flag is `false` if one of the reads gave `NULL`. -/
def receiveMessages (s : Reader UInt8) : Nat → Reader UInt8 × List (List UInt8) × Bool
  | 0 => (s, [], true)
  | n + 1 =>
    match receiveMessage s with
    | (s, some m) =>
      let (s, ms, ok) := receiveMessages s n
      (s, m :: ms, ok)
    | (s, none) => (s, [], false)

/-- A message on the wire. -/
def frame (m : List UInt8) : List UInt8 := intToBytes (.ofNat m.length) ++ m

variable {m part rest : List UInt8} {ms : List (List UInt8)}

theorem length_frame (m : List UInt8) : (frame m).length = 8 + m.length := by
  rw [frame, List.length_append, length_intToBytes]

theorem sendMessage_steady {s : Writer UInt8} (hp : Steady s.pace) (m : List UInt8) :
    ∃ s', sendMessage s m = (s', true) ∧ s'.output = s.output ++ frame m ∧ Steady s'.pace := by
  obtain ⟨s₁, hs₁, hout₁, hp₁⟩ := sendAll_steady hp (intToBytes (.ofNat m.length))
  obtain ⟨s₂, hs₂, hout₂, hp₂⟩ := sendAll_steady hp₁ m
  refine ⟨s₂, ?_, ?_, hp₂⟩
  · rw [sendMessage, sendInt, hs₁]
    exact hs₂
  · rw [hout₂, hout₁, frame, List.append_assoc]

theorem sendMessages_steady {s : Writer UInt8} (hp : Steady s.pace) (ms : List (List UInt8)) :
    ∃ s', sendMessages s ms = (s', true) ∧ s'.output = s.output ++ ms.flatMap frame := by
  induction ms generalizing s with
  | nil => exact ⟨s, rfl, by simp⟩
  | cons m ms ih =>
    obtain ⟨s₁, hs₁, hout₁, hp₁⟩ := sendMessage_steady hp m
    obtain ⟨s₂, hs₂, hout₂⟩ := ih hp₁
    refine ⟨s₂, ?_, ?_⟩
    · rw [sendMessages, hs₁]
      exact hs₂
    · rw [hout₂, hout₁, List.flatMap_cons, List.append_assoc]

theorem toNat_length (hm : m.length < 2 ^ 64) : (UInt64.ofNat m.length).toNat = m.length :=
  UInt64.toNat_ofNat_of_lt' hm

/-- The receiver takes one frame off the stream. -/
theorem receiveMessage_frame (hp : Steady s.pace) (hm : m.length < 2 ^ 64)
    (hin : s.input = frame m ++ rest) :
    ∃ s', receiveMessage s = (s', some m) ∧ s'.input = rest ∧ Steady s'.pace := by
  rw [frame, List.append_assoc] at hin
  obtain ⟨s₁, hs₁, hin₁, hp₁⟩ := readBytes_append hp hin (length_intToBytes_eq _)
  obtain ⟨s₂, hs₂, hin₂, hp₂⟩ := readBytes_append hp₁ hin₁ (toNat_length hm).symm
  refine ⟨s₂, ?_, hin₂, hp₂⟩
  rw [receiveMessage, hs₁]
  dsimp only
  rw [bytesToInt_intToBytes]
  exact hs₂

/-- A frame that breaks off gives no message. -/
theorem receiveMessage_cut (hp : Steady s.pace) (hm : m.length < 2 ^ 64)
    (hpre : s.input <+: frame m) (hlt : s.input.length < (frame m).length) :
    ∃ s', receiveMessage s = (s', none) := by
  rcases Nat.lt_or_ge s.input.length 8 with h8 | h8
  · obtain ⟨s', hr⟩ := readBytes_of_lt (n := 8) h8
    exact ⟨s', by rw [receiveMessage, hr]⟩
  · have hhead : intToBytes (.ofNat m.length) <+: s.input := by
      apply List.prefix_of_prefix_length_le (List.prefix_append _ _) hpre
      rw [length_intToBytes]
      exact h8
    obtain ⟨part, hpart⟩ := hhead
    obtain ⟨s₁, hs₁, hin₁, -⟩ := readBytes_append hp hpart.symm (length_intToBytes_eq _)
    have hshort : s₁.input.length < (UInt64.ofNat m.length).toNat := by
      have hlen := congrArg List.length hpart
      rw [List.length_append, length_intToBytes] at hlen
      rw [length_frame] at hlt
      rw [hin₁, toNat_length hm]
      omega
    obtain ⟨s₂, hs₂⟩ := readBytes_of_lt hshort
    refine ⟨s₂, ?_⟩
    rw [receiveMessage, hs₁]
    dsimp only
    rw [bytesToInt_intToBytes]
    exact hs₂

/-- The receiver takes as many frames off the stream as it asks for. -/
theorem receiveMessages_flatMap (hp : Steady s.pace) (hms : ∀ m ∈ ms, m.length < 2 ^ 64)
    (hin : s.input = ms.flatMap frame ++ rest) (n : Nat) :
    ∃ s', s'.input = rest ∧ Steady s'.pace ∧ receiveMessages s (ms.length + n) =
      ((receiveMessages s' n).1, ms ++ (receiveMessages s' n).2.1,
        (receiveMessages s' n).2.2) := by
  induction ms generalizing s with
  | nil => exact ⟨s, by simpa using hin, hp, by simp⟩
  | cons m ms ih =>
    rw [List.flatMap_cons, List.append_assoc] at hin
    obtain ⟨s₁, hs₁, hin₁, hp₁⟩ := receiveMessage_frame hp (hms m List.mem_cons_self) hin
    obtain ⟨s₂, hin₂, hp₂, hs₂⟩ := ih hp₁ (fun m' hm' => hms m' (List.mem_cons_of_mem _ hm')) hin₁
    refine ⟨s₂, hin₂, hp₂, ?_⟩
    rw [List.length_cons, Nat.add_right_comm, receiveMessages, hs₁]
    dsimp only
    rw [hs₂]
    rfl

/-- A cut of a stream of frames falls into one of them. -/
theorem take_flatMap_frame {k : Nat} (hk : k < (ms.flatMap frame).length) :
    ∃ pre m post part, ms = pre ++ m :: post ∧ part <+: frame m ∧
      part.length < (frame m).length ∧ (ms.flatMap frame).take k = pre.flatMap frame ++ part := by
  induction ms generalizing k with
  | nil => simp at hk
  | cons m ms ih =>
    rw [List.flatMap_cons, List.length_append] at hk
    rcases Nat.lt_or_ge k (frame m).length with hlt | hge
    · refine ⟨[], m, ms, (frame m).take k, rfl, List.take_prefix _ _, ?_, ?_⟩
      · rw [List.length_take]
        omega
      · rw [List.flatMap_cons, List.take_append_of_le_length (Nat.le_of_lt hlt)]
        rfl
    · obtain ⟨pre, m', post, part, rfl, hpart, hlt, htake⟩ :=
        ih (k := k - (frame m).length) (by omega)
      refine ⟨m :: pre, m', post, part, rfl, hpart, hlt, ?_⟩
      rw [List.flatMap_cons, List.take_append, List.take_of_length_le hge, htake,
        List.flatMap_cons, List.append_assoc]

/-- Whatever pieces the socket takes and gives, the receiver gets the messages that were sent and
nothing of what follows them. Of a stream that ends inside a message it gets the messages before
that one and then `NULL`, and no buffer is ever short. -/
theorem framing_lossless (ms : List (List UInt8)) (hms : ∀ m ∈ ms, m.length < 2 ^ 64)
    (sent given : Nat → Nat) (hsent : Steady sent) (hgiven : Steady given) :
    ∃ out, sendMessages ⟨[], sent⟩ ms = (out, true) ∧
      (∀ rest, ∃ s', receiveMessages ⟨out.output ++ rest, given⟩ ms.length = (s', ms, true) ∧
        s'.input = rest) ∧
      (∀ k < out.output.length, ∃ pre m post s', ms = pre ++ m :: post ∧
        (pre.flatMap frame).length ≤ k ∧ k < ((pre ++ [m]).flatMap frame).length ∧
        receiveMessages ⟨out.output.take k, given⟩ ms.length = (s', pre, false)) ∧
      ∀ s n s' bytes, readBytes s n = (s', some bytes) → bytes.length = n.toNat := by
  obtain ⟨out, hout, hwire⟩ := sendMessages_steady (s := ⟨[], sent⟩) hsent ms
  rw [List.nil_append] at hwire
  refine ⟨out, hout, fun rest => ?_, fun k hk => ?_, fun s n s' bytes h => (readBytes_some h).2⟩
  · obtain ⟨s', hin, -, hr⟩ := receiveMessages_flatMap (s := ⟨out.output ++ rest, given⟩)
      hgiven hms (by rw [hwire]) 0
    refine ⟨s', ?_, hin⟩
    rw [Nat.add_zero] at hr
    rw [hr, receiveMessages, List.append_nil]
  · rw [hwire] at hk ⊢
    obtain ⟨pre, m, post, part, rfl, hpart, hlt, htake⟩ := take_flatMap_frame hk
    have hlen := congrArg List.length htake
    rw [List.length_take, Nat.min_eq_left (Nat.le_of_lt hk), List.length_append] at hlen
    obtain ⟨s₁, hin₁, hp₁, hr⟩ := receiveMessages_flatMap
      (s := ⟨((pre ++ m :: post).flatMap frame).take k, given⟩) hgiven
      (fun m' hm' => hms m' (List.mem_append_left _ hm')) htake (post.length + 1)
    obtain ⟨s₂, hs₂⟩ := receiveMessage_cut hp₁ (hms m (by simp)) (hin₁ ▸ hpart) (hin₁ ▸ hlt)
    refine ⟨pre, m, post, s₂, rfl, by omega, ?_, ?_⟩
    · rw [List.flatMap_append, List.length_append, List.flatMap_singleton]
      omega
    · rw [List.length_append, List.length_cons, hr, receiveMessages, hs₂]
      simp

/-- Two messages that go over the socket byte by byte. -/
theorem framing_lossless_bytewise :
    ∃ out, sendMessages ⟨[], fun _ => 1⟩ [[1, 2, 3], []] = (out, true) ∧
      (∀ rest, ∃ s', receiveMessages ⟨out.output ++ rest, fun _ => 1⟩ 2 =
        (s', [[1, 2, 3], []], true) ∧ s'.input = rest) ∧
      (∀ k < out.output.length, ∃ pre m post s', [[1, 2, 3], []] = pre ++ m :: post ∧
        (pre.flatMap frame).length ≤ k ∧ k < ((pre ++ [m]).flatMap frame).length ∧
        receiveMessages ⟨out.output.take k, fun _ => 1⟩ 2 = (s', pre, false)) ∧
      ∀ s n s' bytes, readBytes s n = (s', some bytes) → bytes.length = n.toNat :=
  framing_lossless [[1, 2, 3], []] (by simp) _ _ (fun _ => Nat.one_pos) fun _ => Nat.one_pos

end Corestack.Tetrissh
