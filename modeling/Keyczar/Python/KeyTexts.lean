import Keyczar.Python.PublicKeys
import Keyczar.Python.SessionCrypters
import Mathlib.Data.Rat.Cast.Defs

/-!
# The texts of keys

`ReadKey` reads a key from its JSON text, whatever is in it, and `str` writes the text of a key. What was written is read again as it was.
The text describes the key that was read but for one thing: a size that is not in the list of its type is dropped without a word, and the
default is written instead.
-/

namespace Python

open Bytes Throwing

/-! ## JSON -/

/-- What `loads` returns. Numbers are taken by their value, as `==` does. -/
inductive Json where
  | null
  | bool (value : Bool)
  | number (value : ℚ)
  | string (value : String)
  | array (elements : List Json)
  | object (members : List (String × Json))

/-- The exceptions of reading: besides the others, those of a member that is not there and of a value that has no members. -/
inductive ReadError where
  | raised (e : PyError)
  | keyError
  | typeError
  deriving DecidableEq, Repr

/-- `dumps` and `loads`, with texts of any kind. -/
structure JsonTexts (τ : Type) where
  dumps : Json → τ
  loads : τ → Except PyError Json
  loads_dumps : ∀ v, loads (dumps v) = .ok v

namespace KeyTexts

/-- An exception of the rest of the package. -/
def raising {α : Type} (x : Except PyError α) : Except ReadError α := x.mapError .raised

/-- `v[name]`. -/
def get (v : Json) (name : String) : Except ReadError Json :=
  match v with
  | .object members =>
    match members.lookup name with
    | some member => .ok member
    | none => .error .keyError
  | _ => .error .typeError

/-- What `splitlines` splits a `unicode` string at. -/
def isLineBoundary (c : Char) : Bool := [10, 11, 12, 13, 28, 29, 30, 133, 8232, 8233].contains c.toNat

/-- `Base64WSDecode` of what `loads` returned: `str` takes ASCII only. -/
def decode (v : Json) : Except ReadError Bytes :=
  match v with
  | .string s =>
    let s := s.toList.filter fun c => !isLineBoundary c && c ≠ ' '
    if s.all fun c => c.toNat < 128 then raising (base64WSDecode (s.map fun c => UInt8.ofNat c.toNat)) else .error (.raised .valueError)
  | _ => .error (.raised .attributeError)

/-- `Base64WSEncode`, as it is written by `dumps`. -/
def encode (s : Bytes) : Json := .string (String.ofList ((base64WSEncode s).map fun c => Char.ofNat c.toNat))

/-- The characters of a base 64 text are ASCII, and none is removed. -/
theorem mem_base64WSEncode {s : Bytes} {c : UInt8} (h : c ∈ base64WSEncode s) :
    (Char.ofNat c.toNat).toNat < 128 ∧ UInt8.ofNat (Char.ofNat c.toNat).toNat = c ∧ isLineBoundary (Char.ofNat c.toNat) = false ∧
      Char.ofNat c.toNat ≠ ' ' := by
  have hlt : ∀ i < 64, (Char.ofNat (Base64.webSafe.toChar i).toNat).toNat < 128 := by decide
  have hback : ∀ i < 64, UInt8.ofNat (Char.ofNat (Base64.webSafe.toChar i).toNat).toNat = Base64.webSafe.toChar i := by decide
  have hline : ∀ i < 64, isLineBoundary (Char.ofNat (Base64.webSafe.toChar i).toNat) = false := by decide
  have hblank : ∀ i < 64, Char.ofNat (Base64.webSafe.toChar i).toNat ≠ ' ' := by decide
  obtain ⟨i, hi, rfl⟩ := Base64.exists_of_mem_encode Base64.webSafe h
  exact ⟨hlt i hi, hback i hi, hline i hi, hblank i hi⟩

theorem decode_encode (s : Bytes) : decode (encode s) = .ok s := by
  have hfilter : ((base64WSEncode s).map fun c => Char.ofNat c.toNat).filter (fun c => !isLineBoundary c && c ≠ ' ') =
      (base64WSEncode s).map fun c => Char.ofNat c.toNat := by
    refine List.filter_eq_self.mpr fun c hc => ?_
    obtain ⟨b, hb, rfl⟩ := List.mem_map.mp hc
    obtain ⟨-, -, hline, hblank⟩ := mem_base64WSEncode hb
    simp [hline, hblank]
  have hall : (((base64WSEncode s).map fun c => Char.ofNat c.toNat).all fun c => c.toNat < 128) = true := by
    refine List.all_eq_true.mpr fun c hc => ?_
    obtain ⟨b, hb, rfl⟩ := List.mem_map.mp hc
    exact decide_eq_true (mem_base64WSEncode hb).1
  have hback : (((base64WSEncode s).map fun c => Char.ofNat c.toNat).map fun c => UInt8.ofNat c.toNat) = base64WSEncode s := by
    rw [List.map_map]
    exact (List.map_congr_left fun c hc => (mem_base64WSEncode hc).2.1).trans (List.map_id _)
  simp only [decode, encode, String.toList_ofList, hfilter, hall, if_true, hback, base64WSDecode_encode]
  rfl

/-! ## Sizes -/

/-- `__SetSize` of a new key object. -/
def setSizeOf (t : KeyType) (newSize : Json) : Int :=
  match newSize with
  | .number n => if n.den = 1 then setSize t n.num else t.defaultSize
  | _ => t.defaultSize

/-- A size, as it is written by `dumps`. -/
def numberOf (size : Int) : Json := .number size

theorem isValidSize_setSizeOf (t : KeyType) (newSize : Json) : t.isValidSize (setSizeOf t newSize) = true := by
  unfold setSizeOf
  split
  · split
    · exact isValidSize_setSize t _
    · exact t.isValidSize_defaultSize
  · exact t.isValidSize_defaultSize

/-- A size from the list of the type is kept. -/
theorem setSizeOf_numberOf {t : KeyType} {n : Int} (h : t.isValidSize n = true) : setSizeOf t (numberOf n) = n := by
  show (if (n : ℚ).den = 1 then setSize t (n : ℚ).num else t.defaultSize) = n
  rw [if_pos (Rat.den_intCast n), Rat.num_intCast, setSize_of_valid h]

/-- A size from the list of the type. -/
def Listed (t : KeyType) (size : Json) : Prop := ∃ n : Int, size = numberOf n ∧ t.isValidSize n = true

/-- A size is written as it was read exactly when it is from the list. -/
theorem numberOf_setSizeOf_iff {t : KeyType} {size : Json} : numberOf (setSizeOf t size) = size ↔ Listed t size := by
  constructor
  · intro h
    exact ⟨_, h.symm, isValidSize_setSizeOf t size⟩
  · rintro ⟨n, rfl, hn⟩
    rw [setSizeOf_numberOf hn]

/-! ## Symmetric keys -/

section Symmetric

variable {τ : Type} (J : JsonTexts τ) (P : Primitives)

/-- An `HmacKey`, with its key string as it was read. -/
structure HmacKey where
  keyString : Json
  size : Int

/-- An `AesKey`, with its key string as it was read. -/
structure AesKey where
  keyString : Json
  hmacKey : HmacKey
  size : Int

namespace HmacKey

/-- The constructor. -/
def init (keyString size : Json) : HmacKey := { keyString, size := setSizeOf .hmacSha1 size }

/-- `__str__`. -/
def str (k : HmacKey) : τ := J.dumps (.object [("size", numberOf k.size), ("hmacKeyString", k.keyString)])

/-- `Read`. -/
def read (key : τ) : Except ReadError HmacKey := do
  let mac ← raising (J.loads key)
  let hmacKeyString ← get mac "hmacKeyString"
  let size ← get mac "size"
  return init hmacKeyString size

/-- The key with its bytes. -/
def decoded (k : HmacKey) : Except ReadError Python.HmacKey := do
  let keyBytes ← decode k.keyString
  return { keyBytes, size := k.size }

/-- `hash_id`. -/
def hashId (k : HmacKey) : Except ReadError Bytes := do
  let k ← k.decoded
  return k.hashId P

end HmacKey

/-- `GetMode` of what `loads` returned: what cannot be a key of a dictionary raises a `TypeError`. -/
def getMode (mode : Json) : Except ReadError CipherMode :=
  match mode with
  | .string name => raising (Python.getMode name)
  | .array _ | .object _ => .error .typeError
  | _ => .error (.raised (.keyczarError "Invalid Cipher Mode"))

namespace AesKey

/-- The constructor. -/
def init (keyString : Json) (hmacKey : HmacKey) (size : Json) (mode : CipherMode) : Except ReadError AesKey :=
  if mode = .cbc then .ok { keyString, hmacKey, size := setSizeOf .aes size } else .error (.raised .assertionError)

/-- `__str__`. -/
def str (k : AesKey) : Except ReadError τ := do
  let hmacKey ← raising (J.loads (k.hmacKey.str J))
  return J.dumps (.object [("mode", .string CipherMode.cbc.name), ("size", numberOf k.size), ("aesKeyString", k.keyString),
    ("hmacKey", hmacKey)])

/-- `Read`. -/
def read (key : τ) : Except ReadError AesKey := do
  let aes ← raising (J.loads key)
  let hmacVal ← get aes "hmacKey"
  let aesKeyString ← get aes "aesKeyString"
  let hmacKeyString ← get hmacVal "hmacKeyString"
  let hmacSize ← get hmacVal "size"
  let size ← get aes "size"
  let mode ← get aes "mode"
  let mode ← getMode mode
  init aesKeyString (.init hmacKeyString hmacSize) size mode

/-- The key with its bytes. -/
def decoded (k : AesKey) : Except ReadError Python.AesKey := do
  let keyBytes ← decode k.keyString
  let hmacKey ← k.hmacKey.decoded
  return { keyBytes, hmacKey, size := k.size }

/-- `hash_id`. -/
def hashId (k : AesKey) : Except ReadError Bytes := do
  let k ← k.decoded
  return k.hashId P

end AesKey

end Symmetric

/-! ## Asymmetric keys -/

/-- The dictionary `params`. -/
abbrev Params : Type := List (String × Bytes)

/-- `params[name]`. -/
def Params.get (params : Params) (name : String) : Except ReadError Bytes :=
  match params.lookup name with
  | some value => .ok value
  | none => .error .keyError

/-- A dictionary with these names, and with what a function gives for each. -/
def dict {α : Type} (f : String → Except ReadError α) (names : List String) : Except ReadError (List (String × α)) :=
  names.mapM fun name => do
    let value ← f name
    return (name, value)

/-- The bytes that a member is the text of. -/
def material (v : Json) (name : String) : Except ReadError Bytes := do
  let member ← get v name
  decode member

/-- The numbers that `construct` is called with. -/
def numbers (params : Params) (names : List String) : Except ReadError (List Nat) :=
  names.mapM fun name => do
    let value ← params.get name
    return bytesToLong value

/-- The modules of `Crypto.PublicKey`. -/
inductive CryptoModule where
  | dsa | rsa
  deriving DecidableEq, Repr

/-- `construct`: it may refuse the numbers. -/
abbrev Construct : Type := CryptoModule → List Nat → Except ReadError Unit

/-- What the classes of public keys differ in: the names that `Read` decodes, those that it gives to `construct`, those that are hashed, and
those that `__str__` writes. -/
structure PublicClass where
  type : KeyType
  module : CryptoModule
  readNames : List String
  constructNames : List String
  hashNames : List String
  strNames : List String

/-- What the classes of private keys differ in. -/
structure PrivateClass where
  type : KeyType
  publicClass : PublicClass
  readNames : List String
  constructPublic : List String
  constructPrivate : List String
  strNames : List String

/-- `DsaPublicKey`. -/
def DsaPublicKey : PublicClass where
  type := .dsaPub
  module := .dsa
  readNames := ["y", "p", "g", "q"]
  constructNames := ["y", "g", "p", "q"]
  hashNames := ["p", "q", "g", "y"]
  strNames := ["p", "q", "g", "y"]

/-- `RsaPublicKey`. -/
def RsaPublicKey : PublicClass where
  type := .rsaPub
  module := .rsa
  readNames := ["modulus", "publicExponent"]
  constructNames := ["modulus", "publicExponent"]
  hashNames := ["modulus", "publicExponent"]
  strNames := ["modulus", "publicExponent"]

/-- `DsaPrivateKey`. -/
def DsaPrivateKey : PrivateClass where
  type := .dsaPriv
  publicClass := DsaPublicKey
  readNames := ["x"]
  constructPublic := ["y", "g", "p", "q"]
  constructPrivate := ["x"]
  strNames := ["x"]

/-- `RsaPrivateKey`. -/
def RsaPrivateKey : PrivateClass where
  type := .rsaPriv
  publicClass := RsaPublicKey
  readNames := ["privateExponent", "primeP", "primeQ", "primeExponentP", "primeExponentQ", "crtCoefficient"]
  constructPublic := ["modulus", "publicExponent"]
  constructPrivate := ["privateExponent", "primeQ", "primeP", "crtCoefficient"]
  strNames := ["privateExponent", "primeP", "primeQ", "primeExponentP", "primeExponentQ", "crtCoefficient"]

/-- A public key. -/
structure PublicKey where
  params : Params
  size : Int

/-- A private key. -/
structure PrivateKey where
  params : Params
  publicKey : PublicKey
  size : Int

section Asymmetric

variable {τ : Type} (J : JsonTexts τ) (construct : Construct) (P : Primitives)

namespace PublicKey

/-- `Read`. -/
def read (C : PublicClass) (key : τ) : Except ReadError PublicKey := do
  let v ← raising (J.loads key)
  let params ← dict (material v) C.readNames
  let ns ← numbers params C.constructNames
  construct C.module ns
  let size ← get v "size"
  return { params, size := setSizeOf C.type size }

/-- `__str__`. -/
def str (C : PublicClass) (k : PublicKey) : Except ReadError τ := do
  let members ← dict (fun name => encode <$> k.params.get name) C.strNames
  return J.dumps (.object (members ++ [("size", numberOf k.size)]))

/-- `hash_id`. -/
def hashId (C : PublicClass) (k : PublicKey) : Except ReadError Bytes := do
  let inputs ← C.hashNames.mapM fun name => do
    let value ← k.params.get name
    return trimBytes value
  return base64WSEncode ((prefixHash P inputs).take KEY_HASH_SIZE)

/-- The identifier is that of the key with these parameters. -/
theorem hashId_RsaPublicKey {k : PublicKey} {modulus publicExponent : Bytes} (hmodulus : k.params.get "modulus" = .ok modulus)
    (hpublicExponent : k.params.get "publicExponent" = .ok publicExponent) :
    k.hashId P RsaPublicKey = .ok (Python.RsaPublicKey.hashId P { modulus, publicExponent, size := k.size }) := by
  simp only [hashId, RsaPublicKey, List.mapM_cons, List.mapM_nil, hmodulus, hpublicExponent]
  rfl

theorem hashId_DsaPublicKey {k : PublicKey} {y p g q : Bytes} (hy : k.params.get "y" = .ok y) (hp : k.params.get "p" = .ok p)
    (hg : k.params.get "g" = .ok g) (hq : k.params.get "q" = .ok q) :
    k.hashId P DsaPublicKey = .ok (Python.DsaPublicKey.hashId P { y, p, g, q, size := k.size }) := by
  simp only [hashId, DsaPublicKey, List.mapM_cons, List.mapM_nil, hy, hp, hg, hq]
  rfl

end PublicKey

namespace PrivateKey

/-- `Read`. -/
def read (C : PrivateClass) (key : τ) : Except ReadError PrivateKey := do
  let v ← raising (J.loads key)
  let publicKey ← get v "publicKey"
  let publicKey ← PublicKey.read J construct C.publicClass (J.dumps publicKey)
  let params ← dict (material v) C.readNames
  let publicNumbers ← numbers publicKey.params C.constructPublic
  let privateNumbers ← numbers params C.constructPrivate
  construct C.publicClass.module (publicNumbers ++ privateNumbers)
  let size ← get v "size"
  return { params, publicKey, size := setSizeOf C.type size }

/-- `__str__`. -/
def str (C : PrivateClass) (k : PrivateKey) : Except ReadError τ := do
  let text ← k.publicKey.str J C.publicClass
  let publicKey ← raising (J.loads text)
  let members ← dict (fun name => encode <$> k.params.get name) C.strNames
  return J.dumps (.object (("publicKey", publicKey) :: members ++ [("size", numberOf k.size)]))

/-- `hash_id`. -/
def hashId (C : PrivateClass) (k : PrivateKey) : Except ReadError Bytes := k.publicKey.hashId P C.publicClass

end PrivateKey

end Asymmetric

/-! ## `ReadKey` -/

/-- A key object of one of the classes. -/
inductive Key where
  | aes (k : AesKey)
  | hmac (k : HmacKey)
  | pub (C : PublicClass) (k : PublicKey)
  | priv (C : PrivateClass) (k : PrivateKey)

section

variable {τ : Type} (J : JsonTexts τ) (construct : Construct) (P : Primitives)

/-- The `Read` that the dictionary of `ReadKey` has for a type. -/
def readOf (keyType : KeyType) (key : τ) : Except ReadError Key :=
  match keyType with
  | .aes => Key.aes <$> AesKey.read J key
  | .hmacSha1 => Key.hmac <$> HmacKey.read J key
  | .dsaPriv => Key.priv DsaPrivateKey <$> PrivateKey.read J construct DsaPrivateKey key
  | .rsaPriv => Key.priv RsaPrivateKey <$> PrivateKey.read J construct RsaPrivateKey key
  | .dsaPub => Key.pub DsaPublicKey <$> PublicKey.read J construct DsaPublicKey key
  | .rsaPub => Key.pub RsaPublicKey <$> PublicKey.read J construct RsaPublicKey key

/-- `ReadKey`. A member that is not there raises a `KeyError`, which is taken for a type that is not in the dictionary. -/
def readKey (keyType : KeyType) (key : τ) : Except ReadError Key :=
  match readOf J construct keyType key with
  | .error .keyError => .error (.raised (.keyczarError ("Unsupported key key_type: " ++ keyType.name)))
  | result => result

/-- `str`. -/
def Key.str (k : Key) : Except ReadError τ :=
  match k with
  | .aes k => k.str J
  | .hmac k => .ok (k.str J)
  | .pub C k => k.str J C
  | .priv C k => k.str J C

/-- `hash_id`. -/
def Key.hashId (k : Key) : Except ReadError Bytes :=
  match k with
  | .aes k => k.hashId P
  | .hmac k => k.hashId P
  | .pub C k => k.hashId P C
  | .priv C k => k.hashId P C

end

/-! ## What a text describes -/

/-- A member is the same. -/
def SameMember (name : String) (v w : Json) : Prop := get v name = get w name

/-- A member of the one is in a relation with that of the other. -/
def SameNested (name : String) (R : Json → Json → Prop) (v w : Json) : Prop := ∃ v' w', get v name = .ok v' ∧ get w name = .ok w' ∧ R v' w'

/-- Two texts describe the same HMAC key. -/
def SameHmac (v w : Json) : Prop := SameMember "hmacKeyString" v w ∧ SameMember "size" v w

/-- Two texts describe the same AES key. -/
def SameAes (v w : Json) : Prop :=
  SameMember "mode" v w ∧ SameMember "aesKeyString" v w ∧ SameMember "size" v w ∧ SameNested "hmacKey" SameHmac v w

/-- Two texts describe the same public key: the same bytes, and the same size. -/
def SamePublic (C : PublicClass) (v w : Json) : Prop := (∀ name ∈ C.readNames, material v name = material w name) ∧ SameMember "size" v w

/-- Two texts describe the same private key. -/
def SamePrivate (C : PrivateClass) (v w : Json) : Prop :=
  (∀ name ∈ C.readNames, material v name = material w name) ∧ SameMember "size" v w ∧ SameNested "publicKey" (SamePublic C.publicClass) v w

/-- Two texts describe the same key of a type. -/
def SameKey : KeyType → Json → Json → Prop
  | .aes => SameAes
  | .hmacSha1 => SameHmac
  | .dsaPriv => SamePrivate DsaPrivateKey
  | .rsaPriv => SamePrivate RsaPrivateKey
  | .dsaPub => SamePublic DsaPublicKey
  | .rsaPub => SamePublic RsaPublicKey

/-- The size in a text is from the list of a type. -/
def SizeListed (t : KeyType) (v : Json) : Prop := ∃ size, get v "size" = .ok size ∧ Listed t size

/-- The size in the text of a member is. -/
def NestedListed (name : String) (t : KeyType) (v : Json) : Prop := ∃ v', get v name = .ok v' ∧ SizeListed t v'

/-- The size in the text of a key and that of its nested key are from the lists of their types. -/
def SizesListed : KeyType → Json → Prop
  | .aes, v => SizeListed .aes v ∧ NestedListed "hmacKey" .hmacSha1 v
  | .hmacSha1, v => SizeListed .hmacSha1 v
  | .dsaPriv, v => SizeListed .dsaPriv v ∧ NestedListed "publicKey" .dsaPub v
  | .rsaPriv, v => SizeListed .rsaPriv v ∧ NestedListed "publicKey" .rsaPub v
  | .dsaPub, v => SizeListed .dsaPub v
  | .rsaPub, v => SizeListed .rsaPub v

/-- With the size that is written for the one that was read, the sizes are the same exactly when that one is from the list. -/
theorem sameSize_iff {t : KeyType} {v w size : Json} (hv : get v "size" = .ok size) (hw : get w "size" = .ok (numberOf (setSizeOf t size))) :
    SameMember "size" v w ↔ SizeListed t v := by
  rw [SameMember, hv, hw, SizeListed, hv]
  simp only [Except.ok.injEq, exists_eq_left', ← numberOf_setSizeOf_iff]
  exact eq_comm

theorem sameNested_iff {name : String} {R : Json → Json → Prop} {v w v' w' : Json} (hv : get v name = .ok v') (hw : get w name = .ok w') :
    SameNested name R v w ↔ R v' w' := by
  simp only [SameNested, hv, hw, Except.ok.injEq, exists_and_left, exists_eq_left']

theorem nestedListed_iff {name : String} {t : KeyType} {v v' : Json} (hv : get v name = .ok v') :
    NestedListed name t v ↔ SizeListed t v' := by
  simp only [NestedListed, hv, Except.ok.injEq, exists_eq_left']

/-! ## Symmetric keys, written and read again -/

section

variable {τ : Type} {J : JsonTexts τ}

theorem raising_eq_ok {α : Type} {x : Except PyError α} {a : α} (h : raising x = .ok a) : x = .ok a := by
  cases x with
  | error e => cases h
  | ok b => exact congrArg Except.ok (Except.ok.inj h)

theorem raising_loads_dumps (v : Json) : raising (J.loads (J.dumps v)) = .ok v := by
  rw [J.loads_dumps]
  rfl

/-- What the text of an HMAC key says. -/
def HmacKey.parsed (k : HmacKey) : Json := .object [("size", numberOf k.size), ("hmacKeyString", k.keyString)]

/-- What was read as an HMAC key. -/
theorem HmacKey.read_eq_ok {key : τ} {k : HmacKey} (h : read J key = .ok k) :
    ∃ v keyString size, J.loads key = .ok v ∧ get v "hmacKeyString" = .ok keyString ∧ get v "size" = .ok size ∧ k = init keyString size := by
  obtain ⟨v, hv, h⟩ := ok_of_bind h
  obtain ⟨keyString, hkeyString, h⟩ := ok_of_bind h
  obtain ⟨size, hsize, h⟩ := ok_of_bind h
  exact ⟨v, keyString, size, raising_eq_ok hv, hkeyString, hsize, (Except.ok.inj h).symm⟩

/-- An HMAC key is written with the size that was set. -/
theorem sameHmac_iff {v keyString size : Json} (hkeyString : get v "hmacKeyString" = .ok keyString) (hsize : get v "size" = .ok size) :
    SameHmac v (HmacKey.init keyString size).parsed ↔ SizeListed .hmacSha1 v := by
  have hmember : SameMember "hmacKeyString" v (HmacKey.init keyString size).parsed := hkeyString
  rw [SameHmac, sameSize_iff hsize (t := .hmacSha1) rfl]
  exact and_iff_right hmember

theorem HmacKey.read_parsed {k : HmacKey} (h : KeyType.hmacSha1.isValidSize k.size = true) : read J (J.dumps k.parsed) = .ok k := by
  obtain ⟨keyString, size⟩ := k
  rw [read, raising_loads_dumps, ok_bind]
  show Except.ok (init keyString (numberOf size)) = _
  rw [init, setSizeOf_numberOf h]

/-- What the text of an AES key says. -/
def AesKey.parsed (k : AesKey) : Json :=
  .object [("mode", .string CipherMode.cbc.name), ("size", numberOf k.size), ("aesKeyString", k.keyString), ("hmacKey", k.hmacKey.parsed)]

theorem AesKey.str_eq (k : AesKey) : k.str J = .ok (J.dumps k.parsed) := by
  rw [str, HmacKey.str, raising_loads_dumps]
  rfl

/-- Only `CBC` is the name of that mode. -/
theorem eq_of_getMode {mode : Json} (h : getMode mode = .ok .cbc) : mode = .string CipherMode.cbc.name := by
  unfold getMode at h
  split at h
  · rename_i name
    have hmode := raising_eq_ok h
    unfold Python.getMode at hmode
    split at hmode
    · rfl
    · cases hmode
    · cases hmode
    · cases hmode
    · cases hmode
  · cases h
  · cases h
  · cases h

/-- What was read as an AES key. -/
theorem AesKey.read_eq_ok {key : τ} {k : AesKey} (h : read J key = .ok k) :
    ∃ v hmacVal keyString hmacKeyString hmacSize size, J.loads key = .ok v ∧ get v "hmacKey" = .ok hmacVal ∧
      get v "aesKeyString" = .ok keyString ∧ get hmacVal "hmacKeyString" = .ok hmacKeyString ∧ get hmacVal "size" = .ok hmacSize ∧
      get v "size" = .ok size ∧ get v "mode" = .ok (.string CipherMode.cbc.name) ∧
      k = { keyString, hmacKey := .init hmacKeyString hmacSize, size := setSizeOf .aes size } := by
  obtain ⟨v, hv, h⟩ := ok_of_bind h
  obtain ⟨hmacVal, hhmacVal, h⟩ := ok_of_bind h
  obtain ⟨keyString, hkeyString, h⟩ := ok_of_bind h
  obtain ⟨hmacKeyString, hhmacKeyString, h⟩ := ok_of_bind h
  obtain ⟨hmacSize, hhmacSize, h⟩ := ok_of_bind h
  obtain ⟨size, hsize, h⟩ := ok_of_bind h
  obtain ⟨modeVal, hmodeVal, h⟩ := ok_of_bind h
  obtain ⟨mode, hmode, h⟩ := ok_of_bind h
  unfold init at h
  split at h
  · rename_i hcbc
    subst hcbc
    rw [eq_of_getMode hmode] at hmodeVal
    exact ⟨v, hmacVal, keyString, hmacKeyString, hmacSize, size, raising_eq_ok hv, hhmacVal, hkeyString, hhmacKeyString, hhmacSize,
      hsize, hmodeVal, (Except.ok.inj h).symm⟩
  · cases h

theorem AesKey.read_parsed {k : AesKey} (h : KeyType.aes.isValidSize k.size = true)
    (hhmac : KeyType.hmacSha1.isValidSize k.hmacKey.size = true) : read J (J.dumps k.parsed) = .ok k := by
  obtain ⟨keyString, ⟨hmacKeyString, hmacSize⟩, size⟩ := k
  rw [read, raising_loads_dumps, ok_bind]
  show init keyString (.init hmacKeyString (numberOf hmacSize)) (numberOf size) .cbc = _
  rw [init, HmacKey.init, if_pos rfl, setSizeOf_numberOf h, setSizeOf_numberOf hhmac]

/-- An AES key is written with the sizes that were set. -/
theorem sameAes_iff {v hmacVal keyString hmacKeyString hmacSize size : Json} (hhmacVal : get v "hmacKey" = .ok hmacVal)
    (hkeyString : get v "aesKeyString" = .ok keyString) (hhmacKeyString : get hmacVal "hmacKeyString" = .ok hmacKeyString)
    (hhmacSize : get hmacVal "size" = .ok hmacSize) (hsize : get v "size" = .ok size)
    (hmode : get v "mode" = .ok (.string CipherMode.cbc.name)) :
    SameAes v (AesKey.parsed { keyString, hmacKey := .init hmacKeyString hmacSize, size := setSizeOf .aes size }) ↔
      SizeListed .aes v ∧ NestedListed "hmacKey" .hmacSha1 v := by
  have hmember : SameMember "aesKeyString" v
      (AesKey.parsed { keyString, hmacKey := .init hmacKeyString hmacSize, size := setSizeOf .aes size }) := hkeyString
  have hnested : get (AesKey.parsed { keyString, hmacKey := .init hmacKeyString hmacSize, size := setSizeOf .aes size }) "hmacKey" =
      .ok (HmacKey.init hmacKeyString hmacSize).parsed := rfl
  rw [SameAes, sameSize_iff hsize (t := .aes) rfl, nestedListed_iff hhmacVal, sameNested_iff hhmacVal hnested,
    sameHmac_iff hhmacKeyString hhmacSize]
  constructor
  · rintro ⟨-, -, hlisted⟩
    exact hlisted
  · intro hlisted
    exact ⟨hmode, hmember, hlisted⟩

/-! ## Asymmetric keys, written and read again -/

/-- A function that returns for all names gives a dictionary with what it returned, and no other names are in it. -/
theorem dict_spec {α : Type} {f : String → Except ReadError α} {names : List String} (h : ∀ name ∈ names, ∃ value, f name = .ok value) :
    ∃ members, dict f names = .ok members ∧ (∀ name ∈ names, ∀ value, f name = .ok value → members.lookup name = some value) ∧
      ∀ name ∉ names, members.lookup name = none := by
  induction names with
  | nil => exact ⟨[], rfl, fun name hname => absurd hname List.not_mem_nil, fun name _ => rfl⟩
  | cons first names ih =>
    obtain ⟨⟨value, hvalue⟩, hrest⟩ := List.forall_mem_cons.mp h
    obtain ⟨members, hmembers, hlookup, hnone⟩ := ih hrest
    refine ⟨(first, value) :: members, ?_, ?_, ?_⟩
    · unfold dict at hmembers ⊢
      rw [List.mapM_cons, hvalue, hmembers]
      rfl
    · intro name hname value' hvalue'
      rw [List.lookup_cons]
      by_cases hfirst : name = first
      · subst hfirst
        cases hvalue.symm.trans hvalue'
        simp
      · rw [beq_false_of_ne hfirst]
        exact hlookup name ((List.mem_cons.mp hname).resolve_left hfirst) value' hvalue'
    · intro name hname
      obtain ⟨hfirst, hnames⟩ := not_or.mp (List.mem_cons.not.mp hname)
      rw [List.lookup_cons, beq_false_of_ne hfirst]
      exact hnone name hnames

/-- A dictionary was made of what the function returned for all names. -/
theorem forall_of_dict {α : Type} {f : String → Except ReadError α} {names : List String} {members : List (String × α)}
    (h : dict f names = .ok members) : ∀ name ∈ names, ∃ value, f name = .ok value := by
  induction names generalizing members with
  | nil => exact fun name hname => absurd hname List.not_mem_nil
  | cons first names ih =>
    unfold dict at h
    rw [List.mapM_cons] at h
    obtain ⟨member, hmember, hrest⟩ := ok_of_bind h
    obtain ⟨members, hmembers, -⟩ := ok_of_bind hrest
    obtain ⟨value, hvalue, -⟩ := ok_of_bind hmember
    exact List.forall_mem_cons.mpr ⟨⟨value, hvalue⟩, ih hmembers⟩

theorem dict_congr {α : Type} {f g : String → Except ReadError α} {names : List String} (h : ∀ name ∈ names, f name = g name) :
    dict f names = dict g names := by
  induction names with
  | nil => rfl
  | cons first names ih =>
    obtain ⟨hfirst, hrest⟩ := List.forall_mem_cons.mp h
    unfold dict at ih ⊢
    rw [List.mapM_cons, List.mapM_cons, hfirst, ih hrest]

/-- What `__str__` writes for the parameters that were read: the same material under each name, and no other members. -/
theorem members_of_params {v : Json} {readNames strNames : List String} (hmem : ∀ name, name ∈ strNames ↔ name ∈ readNames) {params : Params}
    (h : dict (material v) readNames = .ok params) :
    ∃ members, dict (fun name => encode <$> params.get name) strNames = .ok members ∧
      (∀ name ∈ readNames, ∃ member, members.lookup name = some member ∧ material v name = decode member) ∧
      ∀ name ∉ strNames, members.lookup name = none := by
  have hall := forall_of_dict h
  obtain ⟨params', hparams', hlookup, -⟩ := dict_spec hall
  obtain rfl := Except.ok.inj (h.symm.trans hparams')
  have hget : ∀ name ∈ readNames, ∃ value, material v name = .ok value ∧ encode <$> params.get name = .ok (encode value) := by
    intro name hname
    obtain ⟨value, hvalue⟩ := hall name hname
    refine ⟨value, hvalue, ?_⟩
    rw [Params.get, hlookup name hname value hvalue]
    rfl
  have hencoded : ∀ name ∈ strNames, ∃ member, encode <$> params.get name = .ok member := by
    intro name hname
    obtain ⟨value, -, hvalue⟩ := hget name ((hmem name).mp hname)
    exact ⟨_, hvalue⟩
  obtain ⟨members, hmembers, hlookup', hnone⟩ := dict_spec hencoded
  refine ⟨members, hmembers, ?_, hnone⟩
  intro name hname
  obtain ⟨value, hvalue, hencode⟩ := hget name hname
  exact ⟨encode value, hlookup' name ((hmem name).mpr hname) _ hencode, by rw [hvalue, decode_encode]⟩

/-- The names of the parameters, in whatever order, are those that `__str__` writes, and none is that of another member. -/
structure PublicClass.Lawful (C : PublicClass) : Prop where
  mem_iff : ∀ name, name ∈ C.strNames ↔ name ∈ C.readNames
  size_not_mem : "size" ∉ C.strNames

structure PrivateClass.Lawful (C : PrivateClass) : Prop where
  publicClass : C.publicClass.Lawful
  mem_iff : ∀ name, name ∈ C.strNames ↔ name ∈ C.readNames
  size_not_mem : "size" ∉ C.strNames
  publicKey_not_mem : "publicKey" ∉ C.strNames

theorem lawful_DsaPublicKey : DsaPublicKey.Lawful where
  mem_iff name := by
    simp only [DsaPublicKey, List.mem_cons, List.not_mem_nil, or_false]
    tauto
  size_not_mem := by decide

theorem lawful_RsaPublicKey : RsaPublicKey.Lawful where
  mem_iff _ := Iff.rfl
  size_not_mem := by decide

theorem lawful_DsaPrivateKey : DsaPrivateKey.Lawful where
  publicClass := lawful_DsaPublicKey
  mem_iff _ := Iff.rfl
  size_not_mem := by decide
  publicKey_not_mem := by decide

theorem lawful_RsaPrivateKey : RsaPrivateKey.Lawful where
  publicClass := lawful_RsaPublicKey
  mem_iff _ := Iff.rfl
  size_not_mem := by decide
  publicKey_not_mem := by decide

/-- What the text of a key with these members says. -/
def parsedWith (members : List (String × Json)) (size : Int) : Json := .object (members ++ [("size", numberOf size)])

theorem get_parsedWith {members : List (String × Json)} {name : String} {member : Json} (h : members.lookup name = some member) (size : Int) :
    get (parsedWith members size) name = .ok member := by
  rw [parsedWith, get, List.lookup_append, h]
  rfl

theorem get_size_parsedWith {members : List (String × Json)} (h : members.lookup "size" = none) (size : Int) :
    get (parsedWith members size) "size" = .ok (numberOf size) := by
  rw [parsedWith, get, List.lookup_append, h]
  rfl

theorem material_parsedWith {members : List (String × Json)} {name : String} {member : Json} (h : members.lookup name = some member)
    (size : Int) : material (parsedWith members size) name = decode member := by
  rw [material, get_parsedWith h]
  rfl

/-- A member in front is found under another name only. -/
theorem lookup_publicKey_cons {members : List (String × Json)} {name : String} (h : name ≠ "publicKey") (publicKey : Json) :
    (("publicKey", publicKey) :: members).lookup name = members.lookup name := by
  rw [List.lookup_cons, beq_false_of_ne h]

variable {construct : Construct}

/-- A public key is written with the bytes that were read and the size that was set, and is read again as it is. -/
theorem PublicKey.str_of_read {C : PublicClass} (hC : C.Lawful) {key : τ} {k : PublicKey} (h : read J construct C key = .ok k) :
    ∃ v w, J.loads key = .ok v ∧ k.str J C = .ok (J.dumps w) ∧ (SamePublic C v w ↔ SizeListed C.type v) ∧
      read J construct C (J.dumps w) = .ok k := by
  obtain ⟨v, hv, h⟩ := ok_of_bind h
  obtain ⟨params, hparams, h⟩ := ok_of_bind h
  obtain ⟨ns, hns, h⟩ := ok_of_bind h
  obtain ⟨u, hu, h⟩ := ok_of_bind h
  obtain ⟨size, hsize, h⟩ := ok_of_bind h
  obtain rfl := Except.ok.inj h
  obtain ⟨members, hmembers, hlookup, hnone⟩ := members_of_params hC.mem_iff hparams
  have hmaterial : ∀ name ∈ C.readNames, material v name = material (parsedWith members (setSizeOf C.type size)) name := by
    intro name hname
    obtain ⟨member, hmember, hsame⟩ := hlookup name hname
    rw [hsame, material_parsedWith hmember]
  have hwritten := get_size_parsedWith (hnone _ hC.size_not_mem) (setSizeOf C.type size)
  refine ⟨v, parsedWith members (setSizeOf C.type size), raising_eq_ok hv, ?_, ?_, ?_⟩
  · rw [str, hmembers]
    rfl
  · rw [SamePublic, sameSize_iff hsize hwritten]
    exact and_iff_right hmaterial
  · rw [read, raising_loads_dumps, ok_bind, ← dict_congr hmaterial, hparams, ok_bind, hns, ok_bind, hu, ok_bind, hwritten, ok_bind,
      setSizeOf_numberOf (isValidSize_setSizeOf C.type size)]
    rfl

/-- A private key is written with its public key, the bytes that were read and the size that was set, and is read again as it is. -/
theorem PrivateKey.str_of_read {C : PrivateClass} (hC : C.Lawful) {key : τ} {k : PrivateKey} (h : read J construct C key = .ok k) :
    ∃ v w, J.loads key = .ok v ∧ k.str J C = .ok (J.dumps w) ∧
      (SamePrivate C v w ↔ SizeListed C.type v ∧ NestedListed "publicKey" C.publicClass.type v) ∧ read J construct C (J.dumps w) = .ok k := by
  obtain ⟨v, hv, h⟩ := ok_of_bind h
  obtain ⟨publicVal, hpublicVal, h⟩ := ok_of_bind h
  obtain ⟨publicKey, hpublicKey, h⟩ := ok_of_bind h
  obtain ⟨params, hparams, h⟩ := ok_of_bind h
  obtain ⟨publicNumbers, hpublicNumbers, h⟩ := ok_of_bind h
  obtain ⟨privateNumbers, hprivateNumbers, h⟩ := ok_of_bind h
  obtain ⟨u, hu, h⟩ := ok_of_bind h
  obtain ⟨size, hsize, h⟩ := ok_of_bind h
  obtain rfl := Except.ok.inj h
  obtain ⟨publicVal', publicWritten, hloads, hstr, hsame, hread⟩ := publicKey.str_of_read hC.publicClass hpublicKey
  obtain rfl := Except.ok.inj ((J.loads_dumps publicVal).symm.trans hloads)
  obtain ⟨members, hmembers, hlookup, hnone⟩ := members_of_params hC.mem_iff hparams
  have hmaterial : ∀ name ∈ C.readNames,
      material v name = material (parsedWith (("publicKey", publicWritten) :: members) (setSizeOf C.type size)) name := by
    intro name hname
    obtain ⟨member, hmember, hsame⟩ := hlookup name hname
    have hne : name ≠ "publicKey" := by
      rintro rfl
      exact hC.publicKey_not_mem ((hC.mem_iff _).mpr hname)
    rw [hsame, material_parsedWith ((lookup_publicKey_cons hne publicWritten).trans hmember)]
  have hwritten := get_size_parsedWith ((lookup_publicKey_cons (by decide) publicWritten).trans (hnone _ hC.size_not_mem))
    (setSizeOf C.type size)
  have hnested : get (parsedWith (("publicKey", publicWritten) :: members) (setSizeOf C.type size)) "publicKey" = .ok publicWritten := rfl
  refine ⟨v, parsedWith (("publicKey", publicWritten) :: members) (setSizeOf C.type size), raising_eq_ok hv, ?_, ?_, ?_⟩
  · rw [str, hstr, ok_bind, raising_loads_dumps, ok_bind, hmembers]
    rfl
  · rw [SamePrivate, sameSize_iff hsize hwritten, sameNested_iff hpublicVal hnested, hsame, nestedListed_iff hpublicVal]
    exact and_iff_right hmaterial
  · rw [read, raising_loads_dumps, ok_bind, hnested, ok_bind, hread, ok_bind, ← dict_congr hmaterial, hparams, ok_bind, hpublicNumbers,
      ok_bind, hprivateNumbers, ok_bind, hu, ok_bind, hwritten, ok_bind, setSizeOf_numberOf (isValidSize_setSizeOf C.type size)]
    rfl

/-! ## Every type -/

theorem readKey_eq_ok_iff {t : KeyType} {key : τ} {k : Key} : readKey J construct t key = .ok k ↔ readOf J construct t key = .ok k := by
  unfold readKey
  split
  · rename_i herror
    rw [herror]
    constructor
    · intro h
      cases h
    · intro h
      cases h
  · exact Iff.rfl

theorem ok_of_map {α β : Type} {f : α → β} {x : Except ReadError α} {b : β} (h : f <$> x = .ok b) : ∃ a, x = .ok a ∧ b = f a := by
  cases x with
  | error e => cases h
  | ok a => exact ⟨a, rfl, (Except.ok.inj h).symm⟩

/-- A key that was read is written as a text that describes the same key exactly when the sizes are from the lists, and is read again as
it is. -/
theorem str_of_readKey {t : KeyType} {key : τ} {k : Key} (h : readKey J construct t key = .ok k) :
    ∃ v w, J.loads key = .ok v ∧ k.str J = .ok (J.dumps w) ∧ (SameKey t v w ↔ SizesListed t v) ∧
      readKey J construct t (J.dumps w) = .ok k := by
  rw [readKey_eq_ok_iff] at h
  simp only [readKey_eq_ok_iff]
  cases t with
  | aes =>
    obtain ⟨k, hk, rfl⟩ := ok_of_map h
    obtain ⟨v, hmacVal, keyString, hmacKeyString, hmacSize, size, hv, hhmacVal, hkeyString, hhmacKeyString, hhmacSize, hsize, hmode, rfl⟩ :=
      AesKey.read_eq_ok hk
    refine ⟨v, _, hv, AesKey.str_eq _, sameAes_iff hhmacVal hkeyString hhmacKeyString hhmacSize hsize hmode, ?_⟩
    rw [readOf, AesKey.read_parsed (isValidSize_setSizeOf .aes size) (isValidSize_setSizeOf .hmacSha1 hmacSize)]
    rfl
  | hmacSha1 =>
    obtain ⟨k, hk, rfl⟩ := ok_of_map h
    obtain ⟨v, keyString, size, hv, hkeyString, hsize, rfl⟩ := HmacKey.read_eq_ok hk
    refine ⟨v, (HmacKey.init keyString size).parsed, hv, rfl, sameHmac_iff hkeyString hsize, ?_⟩
    rw [readOf, HmacKey.read_parsed (k := .init keyString size) (isValidSize_setSizeOf .hmacSha1 size)]
    rfl
  | dsaPriv =>
    obtain ⟨k, hk, rfl⟩ := ok_of_map h
    obtain ⟨v, w, hv, hstr, hsame, hread⟩ := k.str_of_read lawful_DsaPrivateKey hk
    exact ⟨v, w, hv, hstr, hsame, by rw [readOf, hread]; rfl⟩
  | rsaPriv =>
    obtain ⟨k, hk, rfl⟩ := ok_of_map h
    obtain ⟨v, w, hv, hstr, hsame, hread⟩ := k.str_of_read lawful_RsaPrivateKey hk
    exact ⟨v, w, hv, hstr, hsame, by rw [readOf, hread]; rfl⟩
  | dsaPub =>
    obtain ⟨k, hk, rfl⟩ := ok_of_map h
    obtain ⟨v, w, hv, hstr, hsame, hread⟩ := k.str_of_read lawful_DsaPublicKey hk
    exact ⟨v, w, hv, hstr, hsame, by rw [readOf, hread]; rfl⟩
  | rsaPub =>
    obtain ⟨k, hk, rfl⟩ := ok_of_map h
    obtain ⟨v, w, hv, hstr, hsame, hread⟩ := k.str_of_read lawful_RsaPublicKey hk
    exact ⟨v, w, hv, hstr, hsame, by rw [readOf, hread]; rfl⟩

variable (J construct) (P : Primitives)

/-- Writing preserves a key that was read from a text that says `v`: the text that is written describes the same key, and the key that is
read from it has the same hash identifier. -/
def StrPreserves (t : KeyType) (v : Json) (k : Key) : Prop :=
  ∃ text w k', k.str J = .ok text ∧ J.loads text = .ok w ∧ SameKey t v w ∧ readKey J construct t text = .ok k' ∧ k'.hashId P = k.hashId P

/-- Writing preserves a key exactly when its size, and that of its nested key, are from the lists of their types. -/
theorem strPreserves_iff {t : KeyType} {key : τ} {k : Key} (h : readKey J construct t key = .ok k) :
    ∃ v, J.loads key = .ok v ∧ (StrPreserves J construct P t v k ↔ SizesListed t v) := by
  obtain ⟨v, w, hv, hstr, hsame, hread⟩ := str_of_readKey h
  refine ⟨v, hv, ?_⟩
  rw [← hsame]
  constructor
  · rintro ⟨text, w', k', htext, hw', hsame', -, -⟩
    obtain rfl := Except.ok.inj (hstr.symm.trans htext)
    obtain rfl := Except.ok.inj ((J.loads_dumps w).symm.trans hw')
    exact hsame'
  · intro hsame'
    exact ⟨J.dumps w, w, k, hstr, J.loads_dumps w, hsame', hread, rfl⟩

end

/-! ## Keys with sizes of other implementations -/

/-- Texts that are given by what they say. -/
def parsedTexts : JsonTexts Json where
  dumps v := v
  loads v := .ok v
  loads_dumps _ := rfl

/-- The text of a small RSA public key with a size. -/
def smallRsa (size : Int) : Json := .object [("modulus", encode [15]), ("publicExponent", encode [3]), ("size", numberOf size)]

theorem readKey_smallRsa (size : Int) : readKey parsedTexts (fun _ _ => .ok ()) .rsaPub (smallRsa size) =
    .ok (.pub RsaPublicKey { params := [("modulus", [15]), ("publicExponent", [3])], size := setSizeOf .rsaPub (numberOf size) }) := by
  have hmodulus : material (smallRsa size) "modulus" = .ok [15] := decode_encode [15]
  have hexponent : material (smallRsa size) "publicExponent" = .ok [3] := decode_encode [3]
  have hparams : dict (material (smallRsa size)) RsaPublicKey.readNames = .ok [("modulus", [15]), ("publicExponent", [3])] := by
    simp only [dict, RsaPublicKey, List.mapM_cons, List.mapM_nil, hmodulus, hexponent]
    rfl
  have hread : PublicKey.read parsedTexts (fun _ _ => .ok ()) RsaPublicKey (smallRsa size) =
      .ok { params := [("modulus", [15]), ("publicExponent", [3])], size := setSizeOf .rsaPub (numberOf size) } := by
    have hloads : raising (parsedTexts.loads (smallRsa size)) = .ok (smallRsa size) := rfl
    rw [PublicKey.read, hloads, ok_bind, hparams]
    rfl
  rw [readKey_eq_ok_iff, readOf, hread]
  rfl

/-- A key of 1024 bits. -/
theorem strPreserves_iff_1024 :
    StrPreserves parsedTexts (fun _ _ => .ok ()) Primitives.plain .rsaPub (smallRsa 1024)
      (.pub RsaPublicKey { params := [("modulus", [15]), ("publicExponent", [3])], size := 1024 }) := by
  have hsize : setSizeOf .rsaPub (numberOf 1024) = 1024 := setSizeOf_numberOf (by decide)
  have hread := readKey_smallRsa 1024
  rw [hsize] at hread
  obtain ⟨v, hv, hiff⟩ := strPreserves_iff parsedTexts (fun _ _ => .ok ()) Primitives.plain hread
  obtain rfl := Except.ok.inj hv
  exact hiff.mpr ⟨numberOf 1024, rfl, 1024, rfl, by decide⟩

/-- A key of 3072 bits is written as one of 2048. -/
theorem size_of_other_implementations_is_lost :
    readKey parsedTexts (fun _ _ => .ok ()) .rsaPub (smallRsa 3072) =
      .ok (.pub RsaPublicKey { params := [("modulus", [15]), ("publicExponent", [3])], size := 2048 }) ∧
    ¬ StrPreserves parsedTexts (fun _ _ => .ok ()) Primitives.plain .rsaPub (smallRsa 3072)
      (.pub RsaPublicKey { params := [("modulus", [15]), ("publicExponent", [3])], size := 2048 }) := by
  have hsize : setSizeOf .rsaPub (numberOf 3072) = 2048 := by
    show (if ((3072 : Int) : ℚ).den = 1 then setSize .rsaPub ((3072 : Int) : ℚ).num else KeyType.rsaPub.defaultSize) = 2048
    rw [if_pos (Rat.den_intCast 3072), Rat.num_intCast]
    rfl
  have hread := readKey_smallRsa 3072
  rw [hsize] at hread
  refine ⟨hread, ?_⟩
  rintro ⟨text, w, -, htext, hw, ⟨-, hsame⟩, -⟩
  obtain rfl := Except.ok.inj hw
  obtain rfl := Except.ok.inj htext
  have hsizes : (Except.ok (numberOf 3072) : Except ReadError Json) = .ok (numberOf 2048) := hsame
  rw [Except.ok.injEq, numberOf, numberOf, Json.number.injEq, Int.cast_inj] at hsizes
  cases hsizes

end KeyTexts

end Python
