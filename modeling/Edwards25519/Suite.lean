import Edwards25519.Digest.Sha3
import Edwards25519.Cipher.Aes256

/-! The primitives that keys, signatures and envelopes are built on. Nothing else depends on which
ones they are. -/
namespace Edwards25519

structure Suite where
  hash512 : ByteString → Bytes 64
  hash256 : ByteString → Bytes 32
  encryptBlock : Bytes 32 → Bytes 16 → Bytes 16
  decryptBlock : Bytes 32 → Bytes 16 → Bytes 16

/-- SHA-3 and AES with keys of 32 bytes. -/
def Suite.standard : Suite where
  hash512 := Sha3.sha512
  hash256 := Sha3.sha256
  encryptBlock := Aes256.encryptBlock
  decryptBlock := Aes256.decryptBlock

end Edwards25519
