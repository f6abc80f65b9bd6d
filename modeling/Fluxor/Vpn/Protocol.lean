import Fluxor.Support.GoBytes

/-!
# Packets and ciphers of the VPN

`protocol.go` and `crypto.go` of `pkg/vpn`. SHA-256 and the cipher are
parameters: what is used of the cipher is that a message opens to what was
sealed.
-/

namespace Fluxor.Vpn

open Support

/-! ## Packets -/

/-- `PacketType`: the bytes that name a type of packets. -/
inductive PacketType
  | handshake | auth | config | keepAlive | disconnect | data | ack
  deriving DecidableEq

def PacketType.toByte : PacketType → UInt8
  | .handshake => 0x01
  | .auth => 0x02
  | .config => 0x03
  | .keepAlive => 0x04
  | .disconnect => 0x05
  | .data => 0x10
  | .ack => 0x11

def PacketType.ofByte (b : UInt8) : Option PacketType :=
  if b = 0x01 then some .handshake
  else if b = 0x02 then some .auth
  else if b = 0x03 then some .config
  else if b = 0x04 then some .keepAlive
  else if b = 0x05 then some .disconnect
  else if b = 0x10 then some .data
  else if b = 0x11 then some .ack
  else none

/-- `VPNPacket`; `Length` is a number that is only checked. -/
structure VPNPacket where
  (type version : UInt8)
  (sequence timestamp : ℕ)
  data : Bytes

inductive ParseError
  | tooShort (length : ℕ)
  | lengthMismatch (expected got : ℕ)

def extractPayload (data : Bytes) : Except Fault Bytes :=
  if 16 < data.length then slice data 16 data.length else pure []

def parsePacket (data : Bytes) : Except Fault (Except ParseError VPNPacket) :=
  if data.length < 16 then pure (.error (.tooShort data.length))
  else do
    let type ← index data 0
    let version ← index data 1
    let length ← slice data 2 4
    let sequence ← slice data 4 8
    let timestamp ← slice data 8 16
    if bigEndian length ≠ data.length then
      pure (.error (.lengthMismatch (bigEndian length) data.length))
    else
      let payload ← extractPayload data
      pure (.ok ⟨type, version, bigEndian sequence, bigEndian timestamp, payload⟩)

def VPNPacket.serialize (p : VPNPacket) : Option Bytes :=
  if 65535 - 16 < p.data.length then none
  else some (p.type :: p.version :: (putBigEndian 2 (16 + p.data.length) ++
    putBigEndian 4 p.sequence ++ putBigEndian 8 p.timestamp ++ p.data))

/-- A packet of the server: `CreateHandshakePacket` and its relatives. -/
def createPacket (type : PacketType) (timestamp sequence : ℕ) (data : Bytes) : VPNPacket :=
  ⟨type.toByte, 1, sequence, timestamp, data⟩

/-- `ParseAuthData`: two parts with a colon between them. -/
def parseAuthData (p : VPNPacket) : Option (Bytes × Bytes) :=
  if p.type ≠ PacketType.auth.toByte then none
  else match p.data.splitOn 58 with
    | [username, password] => some (username, password)
    | _ => none

/-! ## Ciphers -/

/-- SHA-256, and ChaCha20-Poly1305 with a key, a nonce and a message. -/
structure Primitives where
  sha256 : Bytes → Bytes
  aeadSeal : Bytes → Bytes → Bytes → Bytes
  aeadOpen : Bytes → Bytes → Bytes → Option Bytes
  sha256_length : ∀ data, (sha256 data).length = 32
  open_seal : ∀ key nonce plaintext,
    aeadOpen key nonce (aeadSeal key nonce plaintext) = some plaintext

variable (prim : Primitives)

def saltSize : ℕ := 16

def nonceSize : ℕ := 12

def keySize : ℕ := 32

def deriveKey (salt password : Bytes) : Bytes :=
  (prim.sha256 (salt ++ password)).take keySize

/-- The nonce of a message: its number, and four zero bytes. -/
def nonce (seq : ℕ) : Bytes :=
  putBigEndian 8 seq ++ [0, 0, 0, 0]

def encryptData (key plaintext : Bytes) (seq : ℕ) : Bytes :=
  nonce seq ++ prim.aeadSeal key (nonce seq) plaintext

def decryptData (key nonceAndCipher : Bytes) : Except Fault (Option Bytes) :=
  if nonceAndCipher.length < nonceSize then pure none
  else do
    let nonce ← slice nonceAndCipher 0 nonceSize
    let ciphertext ← slice nonceAndCipher nonceSize nonceAndCipher.length
    pure (prim.aeadOpen key nonce ciphertext)

/-- Primitives that can be evaluated: a message is sealed by writing the key in
front of it. -/
def samplePrimitives : Primitives where
  sha256 data := (data ++ List.replicate 32 0).take 32
  aeadSeal key _ plaintext := key ++ plaintext
  aeadOpen key _ ciphertext :=
    if key.isPrefixOf ciphertext then some (ciphertext.drop key.length) else none
  sha256_length data := by simp
  open_seal key _ plaintext := by simp

/-! ## Echo replies -/

/-- The sum of the 16-bit words; `odd` is what a last single byte adds. -/
def sumWords (odd : UInt8 → ℕ) : Bytes → ℕ → ℕ
  | hi :: lo :: rest, sum => sumWords odd rest ((sum + (256 * hi.toNat + lo.toNat)) % 2 ^ 32)
  | [b], sum => (sum + odd b) % 2 ^ 32
  | [], sum => sum

/-- `for sum > 0xffff`. -/
def foldCarry (sum : ℕ) : ℕ :=
  if 0xffff < sum then foldCarry (sum / 2 ^ 16 + sum % 2 ^ 16) else sum
termination_by sum
decreasing_by omega

def ipChecksum (b : Bytes) : ℕ :=
  0xffff - foldCarry (sumWords (fun _ => 0) b 0)

def icmpChecksum (b : Bytes) : ℕ :=
  0xffff - foldCarry (sumWords (fun b => 256 * b.toNat) b 0)

/-- The reply to an echo request: source and destination are exchanged. -/
def icmpReply (data : Bytes) : Except Fault Bytes := do
  let dst ← slice data 16 20
  let src ← slice data 12 16
  let reply ← splice data 12 dst
  let reply ← splice reply 16 src
  let reply ← splice reply 20 [0]
  let reply ← splice reply 22 [0, 0]
  let message ← slice reply 20 reply.length
  let reply ← splice reply 22 (putBigEndian 2 (icmpChecksum message))
  let reply ← splice reply 10 [0, 0]
  let header ← slice reply 0 20
  splice reply 10 (putBigEndian 2 (ipChecksum header))

/-! ## No panics -/

section Safety

variable {data : Bytes}

theorem safe_parsePacket (data : Bytes) : Safe (parsePacket data) := by
  rw [parsePacket]
  split
  · exact safe_pure _
  · refine safe_bind (safe_index (by omega)) fun type _ => ?_
    refine safe_bind (safe_index (by omega)) fun version _ => ?_
    refine safe_bind (safe_slice (by omega) (by omega)) fun length _ => ?_
    refine safe_bind (safe_slice (by omega) (by omega)) fun sequence _ => ?_
    refine safe_bind (safe_slice (by omega) (by omega)) fun timestamp _ => ?_
    split
    · exact safe_pure _
    · refine safe_bind ?_ fun payload _ => safe_pure _
      rw [extractPayload]
      split
      · exact safe_slice (by omega) le_rfl
      · exact safe_pure _

theorem safe_decryptData (key payload : Bytes) : Safe (decryptData prim key payload) := by
  rw [decryptData]
  split
  · exact safe_pure _
  · refine safe_bind (safe_slice (Nat.zero_le _) (by omega)) fun nonce _ => ?_
    refine safe_bind (safe_slice (by omega) le_rfl) fun ciphertext _ => ?_
    exact safe_pure _

theorem safe_icmpReply (h : 28 ≤ data.length) : Safe (icmpReply data) := by
  rw [icmpReply]
  refine safe_bind (safe_slice (by omega) (by omega)) fun dst hdst => ?_
  refine safe_bind (safe_slice (by omega) (by omega)) fun src hsrc => ?_
  have hdst := length_of_slice hdst
  have hsrc := length_of_slice hsrc
  refine safe_bind (safe_splice (by omega)) fun reply₁ hreply => ?_
  have h₁ := length_of_splice hreply
  refine safe_bind (safe_splice (by omega)) fun reply₂ hreply => ?_
  have h₂ := length_of_splice hreply
  refine safe_bind (safe_splice (by simp; omega)) fun reply₃ hreply => ?_
  have h₃ := length_of_splice hreply
  refine safe_bind (safe_splice (by simp; omega)) fun reply₄ hreply => ?_
  have h₄ := length_of_splice hreply
  refine safe_bind (safe_slice (by omega) le_rfl) fun message _ => ?_
  refine safe_bind (safe_splice (by simp; omega)) fun reply₅ hreply => ?_
  have h₅ := length_of_splice hreply
  refine safe_bind (safe_splice (by simp; omega)) fun reply₆ hreply => ?_
  have h₆ := length_of_splice hreply
  refine safe_bind (safe_slice (by omega) (by omega)) fun header _ => ?_
  exact safe_splice (by simp; omega)

end Safety

end Fluxor.Vpn
