import Keyczar.Primitives

/-!
# The format of AES ciphertexts

The bytes that all implementations agree on: a header of a version byte and four bytes of hash, the initial vector, the encrypted
plaintext with its padding, and a signature of 20 bytes over everything before it. What is not in this file is how an
implementation gets there.
-/

namespace Format

/-- The version byte. -/
def version : UInt8 := 0

/-- What is signed: everything but the signature. -/
def signed (P : Primitives) (hash aesKey iv plain : Bytes) : Bytes :=
  version :: hash ++ iv ++ Cbc.encrypt (P.aes aesKey) iv (Cbc.pad 16 plain)

/-- A ciphertext. -/
def ciphertext (P : Primitives) (hash aesKey hmacKey iv plain : Bytes) : Bytes :=
  signed P hash aesKey iv plain ++ P.hmacSha1 hmacKey (signed P hash aesKey iv plain)

variable (P : Primitives)

/-- The encrypted plaintext is one block longer than its whole blocks. -/
theorem length_body {aesKey iv : Bytes} (hiv : iv.length = 16) (plain : Bytes) :
    (Cbc.encrypt (P.aes aesKey) iv (Cbc.pad 16 plain)).length = (plain.length / 16 + 1) * 16 := by
  rw [Cbc.length_encrypt hiv (Cbc.dvd_length_pad (by decide) plain), Cbc.length_pad_eq (by decide)]

theorem length_signed {hash aesKey iv : Bytes} (hhash : hash.length = 4) (hiv : iv.length = 16) (plain : Bytes) :
    (signed P hash aesKey iv plain).length = 21 + (plain.length / 16 + 1) * 16 := by
  simp only [signed, List.length_append, List.length_cons, length_body P hiv, hhash, hiv]

theorem length_ciphertext {hash aesKey iv : Bytes} (hmacKey : Bytes) (hhash : hash.length = 4) (hiv : iv.length = 16)
    (plain : Bytes) : (ciphertext P hash aesKey hmacKey iv plain).length = 41 + (plain.length / 16 + 1) * 16 := by
  rw [ciphertext, List.length_append, length_signed P hhash hiv, Primitives.length_hmacSha1]
  omega

/-- The body decrypts to the padded plaintext. -/
theorem decrypt_body {aesKey iv : Bytes} (hiv : iv.length = 16) (plain : Bytes) :
    Cbc.decrypt (P.aes aesKey) iv (Cbc.encrypt (P.aes aesKey) iv (Cbc.pad 16 plain)) = Cbc.pad 16 plain :=
  Cbc.decrypt_encrypt hiv (Cbc.dvd_length_pad (by decide) plain)

end Format
