import Keyczar.Python.KeyTexts
import Keyczar.Lib.TwosComplement

/-!
# Keys that are generated

`Generate` stores the numbers of a key of the library as parameters, with `p` and `q` exchanged: the library has the inverse of `p` modulo
`q`, the formats of the others that of `q` modulo `p`. `Read` exchanges them back.
-/

namespace Python.KeyTexts

open Bytes Throwing

/-! ## `Generate` -/

/-- The exception of a remainder modulo zero. -/
structure ZeroDivisionError where
  deriving DecidableEq, Repr

/-- `a % b`. -/
def mod (a b : Nat) : Except ZeroDivisionError Nat := if b = 0 then .error ⟨⟩ else .ok (a % b)

/-- `PadBytes(BigIntToBytes(n), 1)`. -/
def padded (n : Nat) : Bytes := padBytes (bigIntToBytes n) 1

/-- An RSA key of the library. -/
structure RsaNumbers where
  n : Nat
  e : Nat
  d : Nat
  p : Nat
  q : Nat
  u : Nat
  n_eq : n = p * q
  inverse : u * p % q = 1
  u_lt : u < q
  u_pos : 0 < u
  p_pos : 0 < p
  e_pos : 0 < e
  d_pos : 0 < d

/-- A DSA key of the library. -/
structure DsaNumbers where
  y : Nat
  g : Nat
  p : Nat
  q : Nat
  x : Nat
  y_pos : 0 < y
  g_pos : 0 < g
  p_pos : 0 < p
  q_pos : 0 < q
  x_pos : 0 < x

/-- `RsaPrivateKey.Generate`, with the key that the library generates. -/
def RsaPrivateKey.generate (key : RsaNumbers) (size : Int) : Except ZeroDivisionError PrivateKey := do
  let primeExponentP ← mod key.d (key.q - 1)
  let primeExponentQ ← mod key.d (key.p - 1)
  let params := [("privateExponent", padded key.d), ("primeP", padded key.q), ("primeQ", padded key.p),
    ("primeExponentP", padded primeExponentP), ("primeExponentQ", padded primeExponentQ), ("crtCoefficient", padded key.u)]
  let pubParams := [("modulus", padded key.n), ("publicExponent", padded key.e)]
  return { params, publicKey := { params := pubParams, size := setSize .rsaPub size }, size := setSize .rsaPriv size }

/-- `DsaPrivateKey.Generate`, with the key that the library generates. -/
def DsaPrivateKey.generate (key : DsaNumbers) (size : Int) : PrivateKey :=
  let params := [("x", padded key.x)]
  let pubParams := [("g", padded key.g), ("p", padded key.p), ("q", padded key.q), ("y", padded key.y)]
  { params, publicKey := { params := pubParams, size := setSize .dsaPub size }, size := setSize .dsaPriv size }

/-! ## What is stored -/

theorem bytesToLong_padded (n : Nat) : bytesToLong (padded n) = n := by
  show BigEndian.ofBytes (List.replicate (1 : Int).toNat 0 ++ BigEndian.toBytes n) = n
  rw [BigEndian.ofBytes_zeros_append, BigEndian.ofBytes_toBytes]

/-- The zero in front keeps the first bit from being a sign. -/
theorem ofBytes_padded (n : Nat) : TwosComplement.ofBytes (padded n) = n := by
  have hnonneg : TwosComplement.Nonneg (padded n) := TwosComplement.nonneg_zero_cons _
  rw [TwosComplement.ofBytes_of_nonneg hnonneg]
  exact congrArg Nat.cast (bytesToLong_padded n)

/-- A parameter is there, as the bytes of a non-negative number in two's complement. -/
def Stores (params : Params) (name : String) (n : Nat) : Prop :=
  ∃ bytes, params.get name = .ok bytes ∧ TwosComplement.ofBytes bytes = n ∧ bytesToLong bytes = n

theorem stores_padded {params : Params} {name : String} {n : Nat} (h : params.get name = .ok (padded n)) : Stores params name n :=
  ⟨_, h, ofBytes_padded n, bytesToLong_padded n⟩

/-- The numbers that a sequence of parameters stores. -/
theorem numbers_of_stores {params : Params} {names : List String} {ns : List Nat} (h : List.Forall₂ (Stores params) names ns) :
    numbers params names = .ok ns := by
  induction h with
  | nil => rfl
  | cons hstores _ ih =>
    obtain ⟨bytes, hget, -, hvalue⟩ := hstores
    unfold numbers at ih ⊢
    rw [List.mapM_cons, hget, ih, ← hvalue]
    rfl

/-! ## Reading what is written -/

/-- Two dictionaries have the same parameters under some names. -/
def Params.Agree (names : List String) (params params' : Params) : Prop := ∀ name ∈ names, params'.get name = params.get name

theorem numbers_of_agree {names constructNames : List String} {params params' : Params} (h : params.Agree names params')
    (hsub : ∀ name ∈ constructNames, name ∈ names) : numbers params' constructNames = numbers params constructNames := by
  induction constructNames with
  | nil => rfl
  | cons first rest ih =>
    obtain ⟨hfirst, hrest⟩ := List.forall_mem_cons.mp hsub
    have hih := ih hrest
    unfold numbers at hih ⊢
    rw [List.mapM_cons, List.mapM_cons, h first hfirst, hih]

/-- Parameters that are all there are written as members of which each has their bytes, and no other members are written. -/
theorem exists_members {params : Params} {readNames strNames : List String} (hmem : ∀ name, name ∈ strNames ↔ name ∈ readNames)
    (h : ∀ name ∈ readNames, ∃ bytes, params.get name = .ok bytes) :
    ∃ members, dict (fun name => encode <$> params.get name) strNames = .ok members ∧
      (∀ name ∈ readNames, ∃ member, members.lookup name = some member ∧ decode member = params.get name) ∧
      ∀ name ∉ strNames, members.lookup name = none := by
  have hencoded : ∀ name ∈ strNames, ∃ member, encode <$> params.get name = .ok member := by
    intro name hname
    obtain ⟨bytes, hbytes⟩ := h name ((hmem name).mp hname)
    exact ⟨encode bytes, by rw [hbytes]; rfl⟩
  obtain ⟨members, hmembers, hlookup, hnone⟩ := dict_spec hencoded
  refine ⟨members, hmembers, ?_, hnone⟩
  intro name hname
  obtain ⟨bytes, hbytes⟩ := h name hname
  refine ⟨encode bytes, hlookup name ((hmem name).mpr hname) _ (by rw [hbytes]; rfl), ?_⟩
  rw [decode_encode, hbytes]

/-- What is read of such members are the parameters. -/
theorem exists_params {params : Params} {names : List String} {v : Json} (h : ∀ name ∈ names, ∃ bytes, params.get name = .ok bytes)
    (hv : ∀ name ∈ names, material v name = params.get name) :
    ∃ params', dict (material v) names = .ok params' ∧ params.Agree names params' := by
  rw [dict_congr hv]
  obtain ⟨params', hparams', hlookup, -⟩ := dict_spec h
  refine ⟨params', hparams', ?_⟩
  intro name hname
  obtain ⟨bytes, hbytes⟩ := h name hname
  rw [Params.get, hlookup name hname bytes hbytes, hbytes]

variable {τ : Type} (J : JsonTexts τ) (construct : Construct)

/-- A public key whose parameters are all there is written, and of what is written its numbers are given to `construct`. -/
theorem PublicKey.read_str {C : PublicClass} (hC : C.Lawful) (hsub : ∀ name ∈ C.constructNames, name ∈ C.readNames) {k : PublicKey}
    {ns : List Nat} (hparams : ∀ name ∈ C.readNames, ∃ bytes, k.params.get name = .ok bytes)
    (hns : numbers k.params C.constructNames = .ok ns) (hsize : C.type.isValidSize k.size = true) :
    ∃ (w : Json) (k' : PublicKey), k.str J C = .ok (J.dumps w) ∧ k.params.Agree C.readNames k'.params ∧ k'.size = k.size ∧
      read J construct C (J.dumps w) = (do construct C.module ns; return k') := by
  obtain ⟨members, hmembers, hlookup, hnone⟩ := exists_members hC.mem_iff hparams
  have hmaterial : ∀ name ∈ C.readNames, material (parsedWith members k.size) name = k.params.get name := by
    intro name hname
    obtain ⟨member, hmember, hdecode⟩ := hlookup name hname
    rw [material_parsedWith hmember, hdecode]
  have hwritten := get_size_parsedWith (hnone _ hC.size_not_mem) k.size
  obtain ⟨params', hread, hagree⟩ := exists_params hparams hmaterial
  refine ⟨parsedWith members k.size, { params := params', size := k.size }, ?_, hagree, rfl, ?_⟩
  · rw [str, hmembers]
    rfl
  · rw [read, raising_loads_dumps, ok_bind, hread, ok_bind, numbers_of_agree hagree hsub, hns, ok_bind]
    simp only [hwritten, ok_bind, setSizeOf_numberOf hsize]

/-- A private key, likewise: the numbers of its public key are given to `construct`, then its own. -/
theorem PrivateKey.read_str {C : PrivateClass} (hC : C.Lawful)
    (hpublicNames : ∀ name ∈ C.publicClass.constructNames, name ∈ C.publicClass.readNames)
    (hpublic : ∀ name ∈ C.constructPublic, name ∈ C.publicClass.readNames) (hprivate : ∀ name ∈ C.constructPrivate, name ∈ C.readNames)
    {k : PrivateKey} {ns publicNs privateNs : List Nat}
    (hpublicParams : ∀ name ∈ C.publicClass.readNames, ∃ bytes, k.publicKey.params.get name = .ok bytes)
    (hparams : ∀ name ∈ C.readNames, ∃ bytes, k.params.get name = .ok bytes)
    (hns : numbers k.publicKey.params C.publicClass.constructNames = .ok ns)
    (hpublicNs : numbers k.publicKey.params C.constructPublic = .ok publicNs)
    (hprivateNs : numbers k.params C.constructPrivate = .ok privateNs)
    (hpublicSize : C.publicClass.type.isValidSize k.publicKey.size = true) (hsize : C.type.isValidSize k.size = true) :
    ∃ (text : τ) (k' : PrivateKey), k.str J C = .ok text ∧
      (k.publicKey.params.Agree C.publicClass.readNames k'.publicKey.params ∧ k'.publicKey.size = k.publicKey.size) ∧
      (k.params.Agree C.readNames k'.params ∧ k'.size = k.size) ∧
      read J construct C text = (do
        construct C.publicClass.module ns
        construct C.publicClass.module (publicNs ++ privateNs)
        return k') := by
  obtain ⟨publicWritten, publicKey', hstr, hpublicAgree, hpublicSize', hread⟩ :=
    PublicKey.read_str J construct hC.publicClass hpublicNames hpublicParams hns hpublicSize
  obtain ⟨members, hmembers, hlookup, hnone⟩ := exists_members hC.mem_iff hparams
  have hmaterial : ∀ name ∈ C.readNames,
      material (parsedWith (("publicKey", publicWritten) :: members) k.size) name = k.params.get name := by
    intro name hname
    obtain ⟨member, hmember, hdecode⟩ := hlookup name hname
    have hne : name ≠ "publicKey" := by
      rintro rfl
      exact hC.publicKey_not_mem ((hC.mem_iff _).mpr hname)
    rw [material_parsedWith ((lookup_publicKey_cons hne publicWritten).trans hmember), hdecode]
  have hwritten := get_size_parsedWith ((lookup_publicKey_cons (by decide) publicWritten).trans (hnone _ hC.size_not_mem)) k.size
  have hnested : get (parsedWith (("publicKey", publicWritten) :: members) k.size) "publicKey" = .ok publicWritten := rfl
  obtain ⟨params', hdict, hagree⟩ := exists_params hparams hmaterial
  refine ⟨J.dumps (parsedWith (("publicKey", publicWritten) :: members) k.size),
    { params := params', publicKey := publicKey', size := k.size }, ?_, ⟨hpublicAgree, hpublicSize'⟩, ⟨hagree, rfl⟩, ?_⟩
  · rw [str, hstr, ok_bind, raising_loads_dumps, ok_bind, hmembers]
    rfl
  · rw [read, raising_loads_dumps, ok_bind, hnested, ok_bind, hread, bind_assoc]
    simp only [pure_bind, hdict, ok_bind, numbers_of_agree hpublicAgree hpublic, hpublicNs, numbers_of_agree hagree hprivate, hprivateNs,
      hwritten, setSizeOf_numberOf hsize]

/-! ## Keys that are generated, written and read -/

/-- A private key is written, and reading what is written gives `construct` the numbers of the public key and then those of the private
key, and returns a key with the same parameters and sizes. -/
def ReadsBack (C : PrivateClass) (k : PrivateKey) (publicNumbers privateNumbers : List Nat) : Prop :=
  ∃ (text : τ) (k' : PrivateKey), k.str J C = .ok text ∧
    (k.publicKey.params.Agree C.publicClass.readNames k'.publicKey.params ∧ k'.publicKey.size = k.publicKey.size) ∧
    (k.params.Agree C.readNames k'.params ∧ k'.size = k.size) ∧
    PrivateKey.read J construct C text = (do
      construct C.publicClass.module publicNumbers
      construct C.publicClass.module privateNumbers
      return k')

/-- The parameters of a private RSA key are non-negative numbers that are related as the format asks. -/
def StoresPkcs1 (k : PrivateKey) : Prop :=
  ∃ modulus publicExponent privateExponent primeP primeQ primeExponentP primeExponentQ crtCoefficient : Nat,
    (Stores k.publicKey.params "modulus" modulus ∧ Stores k.publicKey.params "publicExponent" publicExponent) ∧
    (Stores k.params "privateExponent" privateExponent ∧ Stores k.params "primeP" primeP ∧ Stores k.params "primeQ" primeQ ∧
      Stores k.params "primeExponentP" primeExponentP ∧ Stores k.params "primeExponentQ" primeExponentQ ∧
      Stores k.params "crtCoefficient" crtCoefficient) ∧
    modulus = primeP * primeQ ∧ primeExponentP = privateExponent % (primeP - 1) ∧ primeExponentQ = privateExponent % (primeQ - 1) ∧
    crtCoefficient * primeQ % primeP = 1

/-- The parameters of a private DSA key are non-negative numbers. -/
def StoresDsa (key : DsaNumbers) (k : PrivateKey) : Prop :=
  (Stores k.publicKey.params "y" key.y ∧ Stores k.publicKey.params "g" key.g ∧ Stores k.publicKey.params "p" key.p ∧
    Stores k.publicKey.params "q" key.q) ∧ Stores k.params "x" key.x

theorem exists_bytes_of_stores {params : Params} {names : List String} {ns : List Nat} (h : List.Forall₂ (Stores params) names ns) :
    ∀ name ∈ names, ∃ bytes, params.get name = .ok bytes := by
  induction h with
  | nil => exact fun name hname => absurd hname List.not_mem_nil
  | cons hstores _ ih =>
    obtain ⟨bytes, hget, -⟩ := hstores
    exact List.forall_mem_cons.mpr ⟨⟨bytes, hget⟩, ih⟩

/-- Without a number below `p` there is no remainder. -/
theorem RsaPrivateKey.generate_of_one {key : RsaNumbers} (h : key.p = 1) (size : Int) : generate key size = .error ⟨⟩ := by
  have hq : key.q - 1 ≠ 0 := by
    have := key.u_lt
    have := key.u_pos
    omega
  rw [generate, mod, if_neg hq, ok_bind, mod, if_pos (by rw [h])]
  rfl

/-- The key that is generated otherwise. -/
theorem RsaPrivateKey.exists_generate {key : RsaNumbers} (h : key.p ≠ 1) (size : Int) :
    ∃ k, generate key size = .ok k ∧ k.size = setSize .rsaPriv size ∧ k.publicKey.size = setSize .rsaPub size ∧
      List.Forall₂ (Stores k.publicKey.params) ["modulus", "publicExponent"] [key.n, key.e] ∧
      List.Forall₂ (Stores k.params) ["privateExponent", "primeP", "primeQ", "primeExponentP", "primeExponentQ", "crtCoefficient"]
        [key.d, key.q, key.p, key.d % (key.q - 1), key.d % (key.p - 1), key.u] := by
  have hq : key.q - 1 ≠ 0 := by
    have := key.u_lt
    have := key.u_pos
    omega
  have hp : key.p - 1 ≠ 0 := by
    have := key.p_pos
    omega
  refine ⟨_, by rw [generate, mod, if_neg hq, ok_bind, mod, if_neg hp]; rfl, rfl, rfl, ?_, ?_⟩
  · exact .cons (stores_padded rfl) (.cons (stores_padded rfl) .nil)
  · exact .cons (stores_padded rfl) (.cons (stores_padded rfl) (.cons (stores_padded rfl) (.cons (stores_padded rfl)
      (.cons (stores_padded rfl) (.cons (stores_padded rfl) .nil)))))

theorem RsaPrivateKey.storesPkcs1 {key : RsaNumbers} {k : PrivateKey}
    (hpublic : List.Forall₂ (Stores k.publicKey.params) ["modulus", "publicExponent"] [key.n, key.e])
    (hprivate : List.Forall₂ (Stores k.params)
      ["privateExponent", "primeP", "primeQ", "primeExponentP", "primeExponentQ", "crtCoefficient"]
      [key.d, key.q, key.p, key.d % (key.q - 1), key.d % (key.p - 1), key.u]) : StoresPkcs1 k := by
  simp only [List.forall₂_cons, List.forall₂_nil_left_iff, and_true] at hpublic hprivate
  refine ⟨key.n, key.e, key.d, key.q, key.p, key.d % (key.q - 1), key.d % (key.p - 1), key.u, hpublic, hprivate, ?_, rfl, rfl, key.inverse⟩
  rw [key.n_eq, Nat.mul_comm]

theorem RsaPrivateKey.readsBack {key : RsaNumbers} {k : PrivateKey} {size : Int} (hsize : k.size = setSize .rsaPriv size)
    (hpublicSize : k.publicKey.size = setSize .rsaPub size)
    (hpublic : List.Forall₂ (Stores k.publicKey.params) ["modulus", "publicExponent"] [key.n, key.e])
    (hprivate : List.Forall₂ (Stores k.params)
      ["privateExponent", "primeP", "primeQ", "primeExponentP", "primeExponentQ", "crtCoefficient"]
      [key.d, key.q, key.p, key.d % (key.q - 1), key.d % (key.p - 1), key.u]) :
    ReadsBack J construct RsaPrivateKey k [key.n, key.e] [key.n, key.e, key.d, key.p, key.q, key.u] := by
  have hparts := hprivate
  simp only [List.forall₂_cons, List.forall₂_nil_left_iff, and_true] at hparts
  obtain ⟨hd, hprimeP, hprimeQ, -, -, hu⟩ := hparts
  -- the second prime of the format is `p`
  have hnumbers : numbers k.params RsaPrivateKey.constructPrivate = .ok [key.d, key.p, key.q, key.u] :=
    numbers_of_stores (.cons hd (.cons hprimeQ (.cons hprimeP (.cons hu .nil))))
  exact PrivateKey.read_str J construct lawful_RsaPrivateKey (by decide) (by decide) (by decide) (exists_bytes_of_stores hpublic)
    (exists_bytes_of_stores hprivate) (numbers_of_stores hpublic) (numbers_of_stores hpublic) hnumbers
    (hpublicSize ▸ isValidSize_setSize .rsaPub size) (hsize ▸ isValidSize_setSize .rsaPriv size)

theorem DsaPrivateKey.storesDsa (key : DsaNumbers) (size : Int) : StoresDsa key (generate key size) :=
  ⟨⟨stores_padded rfl, stores_padded rfl, stores_padded rfl, stores_padded rfl⟩, stores_padded rfl⟩

theorem DsaPrivateKey.readsBack (key : DsaNumbers) (size : Int) :
    ReadsBack J construct DsaPrivateKey (generate key size) [key.y, key.g, key.p, key.q] [key.y, key.g, key.p, key.q, key.x] := by
  obtain ⟨⟨hy, hg, hp, hq⟩, hx⟩ := DsaPrivateKey.storesDsa key size
  have hnumbers : numbers (generate key size).publicKey.params DsaPublicKey.constructNames = .ok [key.y, key.g, key.p, key.q] :=
    numbers_of_stores (.cons hy (.cons hg (.cons hp (.cons hq .nil))))
  have hread : List.Forall₂ (Stores (generate key size).publicKey.params) DsaPublicKey.readNames [key.y, key.p, key.g, key.q] :=
    .cons hy (.cons hp (.cons hg (.cons hq .nil)))
  have hprivate : List.Forall₂ (Stores (generate key size).params) DsaPrivateKey.readNames [key.x] := .cons hx .nil
  exact PrivateKey.read_str J construct lawful_DsaPrivateKey (by decide) (by decide) (by decide) (exists_bytes_of_stores hread)
    (exists_bytes_of_stores hprivate) hnumbers hnumbers (numbers_of_stores hprivate) (isValidSize_setSize .dsaPub size)
    (isValidSize_setSize .dsaPriv size)

/-- What is generated from an RSA key of the library is stored as the format asks, with non-negative numbers, and is read back with the
numbers of that key in their order; nothing is generated where `p` is 1. A DSA key is read back with its numbers, too. -/
theorem generate_readsBack :
    (∀ (key : RsaNumbers) (size : Int),
      (key.p = 1 ∧ RsaPrivateKey.generate key size = .error ⟨⟩) ∨
      (key.p ≠ 1 ∧ ∃ k, RsaPrivateKey.generate key size = .ok k ∧ StoresPkcs1 k ∧
        ReadsBack J construct RsaPrivateKey k [key.n, key.e] [key.n, key.e, key.d, key.p, key.q, key.u])) ∧
    ∀ (key : DsaNumbers) (size : Int), StoresDsa key (DsaPrivateKey.generate key size) ∧
      ReadsBack J construct DsaPrivateKey (DsaPrivateKey.generate key size) [key.y, key.g, key.p, key.q]
        [key.y, key.g, key.p, key.q, key.x] := by
  constructor
  · intro key size
    by_cases hp : key.p = 1
    · exact Or.inl ⟨hp, RsaPrivateKey.generate_of_one hp size⟩
    · obtain ⟨k, hk, hsize, hpublicSize, hpublic, hprivate⟩ := RsaPrivateKey.exists_generate hp size
      exact Or.inr ⟨hp, k, hk, RsaPrivateKey.storesPkcs1 hpublic hprivate,
        RsaPrivateKey.readsBack J construct hsize hpublicSize hpublic hprivate⟩
  · intro key size
    exact ⟨DsaPrivateKey.storesDsa key size, DsaPrivateKey.readsBack J construct key size⟩

end Python.KeyTexts
