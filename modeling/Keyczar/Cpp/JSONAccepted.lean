import Keyczar.Cpp.JSONRoundTrip

/-!
# What the reader accepts

A text that is read gives a list or a dictionary that the library could have made, whatever it looks like. The loops end because every
value takes something of the text, and the leniency for trailing commas adds nothing but the texts that have one.
-/

namespace Cpp

namespace JSONReader

open Entries

/-! ## Tokens -/

theorem length_eatLoop_le (n : Nat) (s : Bytes) : (eatLoop n s).length ≤ s.length := by
  induction n generalizing s with
  | zero => exact Nat.le_refl _
  | succ n ih =>
    cases s with
    | nil => exact Nat.le_refl _
    | cons c s =>
      unfold eatLoop
      split
      · exact (ih s).trans (Nat.le_succ _)
      · split
        · cases hcomment : eatComment (c :: s) with
          | none => exact Nat.le_refl _
          | some rest => exact (ih rest).trans (length_eatComment_lt hcomment).le
        · exact Nat.le_refl _

theorem lt_of_scanString_closed {s : Bytes} {n length : Nat} (h : scanString s n = .closed length) : n < length := by
  fun_induction scanString s n with
  | case1 | case2 | case4 | case5 | case7 | case8 | case10 => cases h
  | case3 n h₁ h₂ s hex ih =>
    have hlt := ih h
    omega
  | case6 n h₁ h₂ h₃ h₄ s hex _ ih =>
    have hlt := ih h
    omega
  | case9 n e s _ _ he ih =>
    have hlt := ih h
    omega
  | case11 s n _ =>
    obtain rfl := StringScan.closed.inj h
    exact Nat.lt_succ_self n
  | case12 c s n _ _ ih => exact (Nat.lt_succ_self n).trans (ih h)

theorem length_readInt_pos {s : Bytes} {b : Bool} {n : Nat} (h : readInt s b = some n) : 0 < n := by
  unfold readInt at h
  dsimp only at h
  split at h
  · cases h
  · split at h
    · cases h
    · obtain rfl := Option.some.inj h
      omega

theorem le_of_readFraction {s : Bytes} {n m : Nat} (h : readFraction s n = some m) : n ≤ m := by
  unfold readFraction at h
  split at h
  · obtain ⟨k, -, rfl⟩ := Option.map_eq_some_iff.mp h
    omega
  · exact (Option.some.inj h).le

theorem le_of_readExponent {s : Bytes} {n m : Nat} (h : readExponent s n = some m) : n ≤ m := by
  unfold readExponent at h
  dsimp only at h
  split at h
  · obtain ⟨k, -, rfl⟩ := Option.map_eq_some_iff.mp h
    split <;> omega
  · exact (Option.some.inj h).le

/-- A number is not empty. -/
theorem parseNumberToken_length (s : Bytes) : (parseNumberToken s).type = .invalidToken ∨ 0 < (parseNumberToken s).length := by
  unfold parseNumberToken
  dsimp only
  split
  · exact Or.inl rfl
  · rename_i n hn
    obtain ⟨m, hm, hexponent⟩ := Option.bind_eq_some_iff.mp hn
    obtain ⟨k, hk, hfraction⟩ := Option.bind_eq_some_iff.mp hm
    obtain ⟨digits, hdigits, rfl⟩ := Option.map_eq_some_iff.mp hk
    have hpos := length_readInt_pos hdigits
    have hle := le_of_readFraction hfraction
    have hle' := le_of_readExponent hexponent
    refine Or.inr ?_
    show 0 < n
    omega

/-- What a token leaves: the reader as it is, with a token that is invalid or not empty; or with a message about an escape. -/
inductive Tokens (r : JSONReader) : Token × JSONReader → Prop
  | token (token : Token) : token.type = .invalidToken ∨ 0 < token.length → Tokens r (token, r)
  | invalidEscape (pos : Bytes) : Tokens r (kInvalidToken, r.setErrorMessage kInvalidEscape pos)

theorem Tokens.jsonPos_eq {r : JSONReader} {p : Token × JSONReader} (h : Tokens r p) : p.2.jsonPos = r.jsonPos := by
  cases h with
  | token token _ => rfl
  | invalidEscape pos => rfl

theorem Tokens.wordToken (r : JSONReader) {word : String} (hword : 0 < word.length) (type : TokenType) :
    Tokens r (r.wordToken word type, r) := by
  refine .token _ ?_
  unfold JSONReader.wordToken
  split
  · exact Or.inr hword
  · exact Or.inl rfl

theorem tokens_parseStringToken (r : JSONReader) : Tokens r r.parseStringToken := by
  unfold parseStringToken
  cases hscan : scanString (r.jsonPos.drop 1) 1 with
  | closed length => exact .token _ (Or.inr ((Nat.zero_lt_one).trans (lt_of_scanString_closed hscan)))
  | invalidEscape length => exact .invalidEscape _
  | unterminated => exact .token _ (Or.inl rfl)

theorem tokens_tokenOf (r : JSONReader) (c : UInt8) : Tokens r (r.tokenOf c) := by
  have hone (type : TokenType) : Tokens r (⟨type, 1⟩, r) := .token _ (Or.inr Nat.zero_lt_one)
  unfold tokenOf
  refine iteInduction (fun _ => .wordToken r (by decide) _) fun _ => ?_
  refine iteInduction (fun _ => .wordToken r (by decide) _) fun _ => ?_
  refine iteInduction (fun _ => .wordToken r (by decide) _) fun _ => ?_
  refine iteInduction (fun _ => hone _) fun _ => ?_
  refine iteInduction (fun _ => hone _) fun _ => ?_
  refine iteInduction (fun _ => hone _) fun _ => ?_
  refine iteInduction (fun _ => hone _) fun _ => ?_
  refine iteInduction (fun _ => hone _) fun _ => ?_
  refine iteInduction (fun _ => hone _) fun _ => ?_
  refine iteInduction (fun _ => .token _ (parseNumberToken_length _)) fun _ => ?_
  refine iteInduction (fun _ => tokens_parseStringToken r) fun _ => ?_
  exact .token _ (Or.inl rfl)

theorem jsonPos_parseToken (r : JSONReader) : r.parseToken.2.jsonPos = eatWhitespaceAndComments r.jsonPos := by
  unfold parseToken
  cases heat : eatWhitespaceAndComments r.jsonPos with
  | nil => rfl
  | cons c s => exact (tokens_tokenOf { r with jsonPos := c :: s } c).jsonPos_eq

theorem length_parseToken_le (r : JSONReader) : r.parseToken.2.jsonPos.length ≤ r.jsonPos.length := by
  rw [jsonPos_parseToken]
  exact length_eatLoop_le _ _

theorem length_advance_le (r : JSONReader) (token : Token) : (r.advance token).jsonPos.length ≤ r.jsonPos.length := by
  rw [advance, List.length_drop]
  exact Nat.sub_le _ _

/-- A token that is not the end takes something of the text. -/
theorem length_advance_lt {r r' : JSONReader} {token : Token} (h : r.parseToken = (token, r'))
    (hinvalid : token.type ≠ .invalidToken) (hend : token.type ≠ .endOfInput) : (r'.advance token).jsonPos.length < r.jsonPos.length := by
  have hle := length_parseToken_le r
  rw [h] at hle
  unfold parseToken at h
  cases heat : eatWhitespaceAndComments r.jsonPos with
  | nil =>
    rw [heat] at h
    obtain ⟨rfl, -⟩ := Prod.mk.inj h
    exact absurd rfl hend
  | cons c s =>
    rw [heat] at h
    have htokens := tokens_tokenOf { r with jsonPos := c :: s } c
    rw [show tokenOf { r with jsonPos := c :: s } c = (token, r') from h] at htokens
    cases htokens with
    | token _ hpos =>
      have hpos := hpos.resolve_left hinvalid
      rw [advance, List.length_drop]
      simp only [List.length_cons] at hle ⊢
      omega
    | invalidEscape pos => exact absurd rfl hinvalid

/-! ## Loops -/

theorem length_parseSeparator_le {close : TokenType} {r r' : JSONReader} {token : Token}
    (h : parseSeparator close r = .ok (token, r')) : r'.jsonPos.length ≤ r.jsonPos.length := by
  unfold parseSeparator at h
  have hle := length_parseToken_le r
  generalize r.parseToken = p at h hle
  obtain ⟨comma, r₁⟩ := p
  dsimp only at h hle
  split at h
  · have hadvance := length_advance_le r₁ comma
    have hnext := length_parseToken_le (r₁.advance comma)
    generalize (r₁.advance comma).parseToken = q at h hnext
    obtain ⟨next, r₂⟩ := q
    dsimp only at h hnext
    split at h
    · cases h
    · cases h
      omega
  · split at h
    · cases h
    · cases h
      exact hle

/-- What a function builds could have been made by the library, and it has taken something of the text. -/
def Makes (build : Build Value) : Prop :=
  ∀ ⦃r : JSONReader⦄ ⦃v : Value⦄ ⦃r' : JSONReader⦄, build r = .ok (v, r') → v.Proper ∧ r'.jsonPos.length < r.jsonPos.length

theorem Makes.buildList {build : Build Value} (hmakes : Makes build) {n : Nat} {token : Token} {acc values : List Value}
    {r r' : JSONReader} (hacc : ∀ v ∈ acc, v.Proper) (h : JSONReader.buildList build n token acc r = .ok (values, r')) :
    (∀ v ∈ values, v.Proper) ∧ r'.jsonPos.length ≤ r.jsonPos.length := by
  induction n generalizing token acc r with
  | zero => cases h
  | succ n ih =>
    unfold JSONReader.buildList at h
    split at h
    · cases h
      exact ⟨hacc, length_advance_le _ _⟩
    · obtain ⟨⟨v, r₁⟩, hv, h⟩ := Throwing.ok_of_bind h
      obtain ⟨⟨next, r₂⟩, hnext, h⟩ := Throwing.ok_of_bind h
      obtain ⟨hproper, hlt⟩ := hmakes hv
      have hle := length_parseSeparator_le hnext
      have hacc' : ∀ w ∈ acc ++ [v], w.Proper := by
        intro w hw
        rcases List.mem_append.mp hw with hw | hw
        · exact hacc w hw
        · rwa [List.mem_singleton.mp hw]
      obtain ⟨hvalues, hle'⟩ := ih hacc' h
      exact ⟨hvalues, by omega⟩

/-- What the loop over a dictionary has done when it goes on: a key, a colon and a value were read. -/
theorem buildDictionary_succ {build : Build Value} {n : Nat} {token : Token} {acc entries : Entries} {r r' : JSONReader}
    (h : buildDictionary build (n + 1) token acc r = .ok (entries, r')) :
    (entries = acc ∧ r' = r.advance token) ∨ ∃ key v next r₁ r₂ r₃, r₁.jsonPos.length ≤ r.jsonPos.length ∧ build r₁ = .ok (v, r₂) ∧
      parseSeparator .objectEnd r₂ = .ok (next, r₃) ∧ buildDictionary build n next (acc.set key v) r₃ = .ok (entries, r') := by
  unfold buildDictionary at h
  split at h
  · cases h
    exact Or.inl ⟨rfl, rfl⟩
  · split at h
    · cases h
    · split at h
      · cases h
      · rename_i key _
        have hadvance := length_advance_le r token
        have hcolon := length_parseToken_le (r.advance token)
        generalize (r.advance token).parseToken = p at h hcolon
        obtain ⟨colon, r₁⟩ := p
        dsimp only at h hcolon
        split at h
        · cases h
        · have hadvance' := length_advance_le r₁ colon
          have hvalue := length_parseToken_le (r₁.advance colon)
          generalize (r₁.advance colon).parseToken = q at h hvalue
          obtain ⟨first, r₂⟩ := q
          obtain ⟨⟨v, r₃⟩, hv, h⟩ := Throwing.ok_of_bind h
          obtain ⟨⟨next, r₄⟩, hnext, h⟩ := Throwing.ok_of_bind h
          dsimp only at hvalue
          exact Or.inr ⟨key, v, next, r₂, r₃, r₄, by omega, hv, hnext, h⟩

theorem Makes.buildDictionary {build : Build Value} (hmakes : Makes build) {n : Nat} {token : Token} {acc entries : Entries}
    {r r' : JSONReader} (hacc : (Value.dictionary acc).Proper)
    (h : JSONReader.buildDictionary build n token acc r = .ok (entries, r')) :
    (Value.dictionary entries).Proper ∧ r'.jsonPos.length ≤ r.jsonPos.length := by
  induction n generalizing token acc r with
  | zero => cases h
  | succ n ih =>
    rcases buildDictionary_succ h with ⟨rfl, rfl⟩ | ⟨key, v, next, r₁, r₂, r₃, hle, hv, hnext, h⟩
    · exact ⟨hacc, length_advance_le _ _⟩
    · obtain ⟨hproper, hlt⟩ := hmakes hv
      have hle' := length_parseSeparator_le hnext
      obtain ⟨hentries, hle''⟩ := ih (hacc.set key hproper) h
      exact ⟨hentries, by omega⟩

/-- With a turn for every character that is left the loop over a list does not run out of turns. -/
theorem Makes.buildList_of_lt {build : Build Value} (hmakes : Makes build) {n m : Nat} {r : JSONReader} (hn : r.jsonPos.length < n)
    (hm : r.jsonPos.length < m) (token : Token) (acc : List Value) :
    JSONReader.buildList build n token acc r = JSONReader.buildList build m token acc r := by
  induction n generalizing m token acc r with
  | zero => exact absurd hn (Nat.not_lt_zero _)
  | succ n ih =>
    obtain ⟨m, rfl⟩ : ∃ k, m = k + 1 := ⟨m - 1, by omega⟩
    unfold JSONReader.buildList
    split
    · rfl
    · cases hv : build r with
      | error r' => rfl
      | ok p =>
        obtain ⟨v, r₁⟩ := p
        rw [Throwing.ok_bind, Throwing.ok_bind]
        dsimp only
        cases hnext : parseSeparator .arrayEnd r₁ with
        | error r' => rfl
        | ok q =>
          obtain ⟨next, r₂⟩ := q
          have hlt := (hmakes hv).2
          have hle := length_parseSeparator_le hnext
          exact ih (show r₂.jsonPos.length < n by omega) (show r₂.jsonPos.length < m by omega) next (acc ++ [v])

/-! ## Values -/

/-- Every value that is read could have been made by the library. The induction is on the levels that are left. -/
theorem makes_buildValue (levels : Nat) (isRoot : Bool) : Makes (buildValue levels isRoot) := by
  induction levels generalizing isRoot with
  | zero =>
    intro r v r' h
    cases h
  | succ levels ih =>
    intro r v r' h
    unfold buildValue at h
    have hlt : ∀ token r₁, r.parseToken = (token, r₁) → token.type ≠ .invalidToken → token.type ≠ .endOfInput →
        (r₁.advance token).jsonPos.length < r.jsonPos.length := fun _ _ => length_advance_lt
    generalize r.parseToken = p at h hlt
    obtain ⟨token, r₁⟩ := p
    replace hlt := hlt token r₁ rfl
    dsimp only at h
    split at h
    · cases h
    · split at h
      · rename_i htype
        cases h
        exact ⟨.null, hlt (by rw [htype]; decide) (by rw [htype]; decide)⟩
      · rename_i htype
        cases h
        exact ⟨.boolean true, hlt (by rw [htype]; decide) (by rw [htype]; decide)⟩
      · rename_i htype
        cases h
        exact ⟨.boolean false, hlt (by rw [htype]; decide) (by rw [htype]; decide)⟩
      · rename_i htype
        cases h
        exact ⟨.integer (inIntRange_strto32 _), hlt (by rw [htype]; decide) (by rw [htype]; decide)⟩
      · rename_i htype
        split at h
        · cases h
        · cases h
          exact ⟨.string _, hlt (by rw [htype]; decide) (by rw [htype]; decide)⟩
      · rename_i htype
        have hfirst := length_parseToken_le (r₁.advance token)
        obtain ⟨⟨values, r₂⟩, hlist, h⟩ := Throwing.ok_of_bind h
        cases h
        obtain ⟨hvalues, hle⟩ := (ih false).buildList (List.forall_mem_nil _) hlist
        have hopen := hlt (by rw [htype]; decide) (by rw [htype]; decide)
        exact ⟨.list hvalues, show r₂.jsonPos.length < r.jsonPos.length by omega⟩
      · rename_i htype
        have hfirst := length_parseToken_le (r₁.advance token)
        obtain ⟨⟨entries, r₂⟩, hdictionary, h⟩ := Throwing.ok_of_bind h
        cases h
        obtain ⟨hentries, hle⟩ := (ih false).buildDictionary Value.proper_empty hdictionary
        have hopen := hlt (by rw [htype]; decide) (by rw [htype]; decide)
        exact ⟨hentries, show r₂.jsonPos.length < r.jsonPos.length by omega⟩
      · cases h

theorem isRoot_of_buildValue {levels : Nat} {r r' : JSONReader} {v : Value} (h : buildValue levels true r = .ok (v, r')) :
    v.isRoot = true := by
  cases levels with
  | zero => cases h
  | succ levels =>
    unfold buildValue at h
    generalize r.parseToken = p at h
    obtain ⟨token, r₁⟩ := p
    dsimp only at h
    split at h
    · cases h
    · rename_i hroot
      split at h
      · rename_i htype
        exact absurd ⟨rfl, by rw [htype]; decide, by rw [htype]; decide⟩ hroot
      · rename_i htype
        exact absurd ⟨rfl, by rw [htype]; decide, by rw [htype]; decide⟩ hroot
      · rename_i htype
        exact absurd ⟨rfl, by rw [htype]; decide, by rw [htype]; decide⟩ hroot
      · rename_i htype
        exact absurd ⟨rfl, by rw [htype]; decide, by rw [htype]; decide⟩ hroot
      · rename_i htype
        exact absurd ⟨rfl, by rw [htype]; decide, by rw [htype]; decide⟩ hroot
      · obtain ⟨⟨values, r₂⟩, -, h⟩ := Throwing.ok_of_bind h
        cases h
        rfl
      · obtain ⟨⟨entries, r₂⟩, -, h⟩ := Throwing.ok_of_bind h
        cases h
        rfl
      · cases h

theorem readAndReturnError_eq_ok {json : Bytes} {allowTrailingComma : Bool} {v : Value}
    (h : readAndReturnError json allowTrailingComma = .ok v) :
    ∃ r', buildValue kStackLimit true ⟨cStr json, cStr json, allowTrailingComma, ""⟩ = .ok (v, r') := by
  unfold readAndReturnError jsonToValue at h
  split at h
  · cases h
  · dsimp only at h
    split at h
    · cases h
    · rename_i root r' hroot
      split at h
      · cases h
        exact ⟨r', hroot⟩
      · cases h

/-- Whatever text is read, the value is a list or a dictionary that the library could have made; so its own text, compact or pretty, is
read as the same value when it has few enough levels and its strings are UTF-8, and refused if not. -/
theorem readAndReturnError_accepted {json : Bytes} {allowTrailingComma : Bool} {v : Value}
    (h : readAndReturnError json allowTrailingComma = .ok v) : v.Proper ∧ v.isRoot = true ∧ ∀ p allow,
      (readAndReturnError (JSONWriter.write v p) allow = .ok v ↔ v.Within kStackLimit ∧ v.Utf8) := by
  obtain ⟨r', hr'⟩ := readAndReturnError_eq_ok h
  have hproper := (makes_buildValue kStackLimit true hr').1
  have hroot := isRoot_of_buildValue hr'
  refine ⟨hproper, hroot, ?_⟩
  intro p allow
  obtain ⟨hread, hrefused⟩ := written_reads hproper hroot p allow
  constructor
  · intro hok
    by_contra hno
    obtain ⟨message, hmessage⟩ := hrefused hno
    rw [hmessage] at hok
    cases hok
  · exact hread

theorem readAndReturnError_accepted_small : (Value.list [.integer 1]).Proper ∧ (Value.list [.integer 1]).isRoot = true ∧ ∀ p allow,
    (readAndReturnError (JSONWriter.write (.list [.integer 1]) p) allow = .ok (.list [.integer 1]) ↔
      (Value.list [.integer 1]).Within kStackLimit ∧ (Value.list [.integer 1]).Utf8) := by
  have hread : readAndReturnError [91, 49, 44, 93] true = .ok (.list [.integer 1]) := by rfl
  exact readAndReturnError_accepted hread

/-! ## Trailing commas -/

/-- The reader that lets trailing commas pass. -/
def lenient (r : JSONReader) : JSONReader := { r with allowTrailingComma := true }

theorem ite_map {α β : Type} {c : Prop} [Decidable c] {f : α → β} {a b : α} {a' b' : β} (ha : a' = f a) (hb : b' = f b) :
    (if c then a' else b') = f (if c then a else b) := by
  rw [ha, hb, apply_ite f]

theorem parseStringToken_lenient (r : JSONReader) : r.lenient.parseStringToken = Prod.map id lenient r.parseStringToken := by
  unfold parseStringToken
  rw [show r.lenient.jsonPos = r.jsonPos from rfl]
  cases scanString (r.jsonPos.drop 1) 1 <;> rfl

/-- The tokens of the lenient reader are the same. -/
theorem tokenOf_lenient (r : JSONReader) (c : UInt8) : r.lenient.tokenOf c = Prod.map id lenient (r.tokenOf c) := by
  unfold tokenOf
  refine ite_map rfl (ite_map rfl (ite_map rfl (ite_map rfl (ite_map rfl (ite_map rfl ?_)))))
  exact ite_map rfl (ite_map rfl (ite_map rfl (ite_map rfl (ite_map (parseStringToken_lenient r) rfl))))

theorem parseToken_lenient (r : JSONReader) : r.lenient.parseToken = Prod.map id lenient r.parseToken := by
  unfold parseToken
  dsimp only
  rw [show r.lenient.jsonPos = r.jsonPos from rfl]
  cases eatWhitespaceAndComments r.jsonPos with
  | nil => rfl
  | cons c s => exact tokenOf_lenient { r with jsonPos := c :: s } c

/-- The last message is that of a trailing comma. -/
def TrailingComma (r : JSONReader) : Prop := ∃ before pos, r = setErrorMessage before kTrailingComma pos

/-- How the strict reader ends, and how the lenient one does: with the same, or both refuse, or the strict one complains about a trailing
comma. -/
inductive Lenience {α : Type} : Except JSONReader (α × JSONReader) → Except JSONReader (α × JSONReader) → Prop
  | same (a : α) (r : JSONReader) : Lenience (.ok (a, r)) (.ok (a, r.lenient))
  | refused (r r' : JSONReader) : Lenience (.error r) (.error r')
  | trailingComma {r : JSONReader} : TrailingComma r → ∀ x, Lenience (.error r) x

theorem Lenience.bind {α β : Type} {x y : Except JSONReader (α × JSONReader)} (h : Lenience x y)
    {f : α × JSONReader → Except JSONReader (β × JSONReader)} (hf : ∀ a r, Lenience (f (a, r)) (f (a, r.lenient))) :
    Lenience (x >>= f) (y >>= f) := by
  cases h with
  | same a r => exact hf a r
  | refused r r' => exact .refused r r'
  | trailingComma hr x => exact .trailingComma hr _

theorem lenience_parseSeparator (close : TokenType) (r : JSONReader) :
    Lenience (parseSeparator close r) (parseSeparator close r.lenient) := by
  unfold parseSeparator
  rw [parseToken_lenient]
  obtain ⟨token, r₁⟩ := r.parseToken
  dsimp only [Prod.map_apply, id_eq]
  by_cases hcomma : token.type = .listSeparator
  · rw [if_pos hcomma, if_pos hcomma, show r₁.lenient.advance token = (r₁.advance token).lenient from rfl, parseToken_lenient]
    obtain ⟨next, r₂⟩ := (r₁.advance token).parseToken
    dsimp only [Prod.map_apply, id_eq]
    rw [if_neg (c := next.type = close ∧ (!r₂.lenient.allowTrailingComma) = true) (fun h => Bool.false_ne_true h.2)]
    split
    · exact .trailingComma ⟨r₂, _, rfl⟩ _
    · exact .same next r₂
  · rw [if_neg hcomma, if_neg hcomma]
    by_cases hclose : token.type ≠ close
    · rw [if_pos hclose, if_pos hclose]
      exact .refused _ _
    · rw [if_neg hclose, if_neg hclose]
      exact .same token r₁

theorem lenience_buildList {build : Build Value} (h : ∀ r, Lenience (build r) (build r.lenient)) (n : Nat) (token : Token)
    (acc : List Value) (r : JSONReader) : Lenience (buildList build n token acc r) (buildList build n token acc r.lenient) := by
  induction n generalizing token acc r with
  | zero => exact .refused _ _
  | succ n ih =>
    unfold buildList
    by_cases hend : token.type = .arrayEnd
    · rw [if_pos hend, if_pos hend]
      exact .same acc (r.advance token)
    · rw [if_neg hend, if_neg hend]
      refine (h r).bind fun v r₁ => ?_
      exact (lenience_parseSeparator .arrayEnd r₁).bind fun next r₂ => ih next (acc ++ [v]) r₂

theorem lenience_buildDictionary {build : Build Value} (h : ∀ r, Lenience (build r) (build r.lenient)) (n : Nat) (token : Token)
    (acc : Entries) (r : JSONReader) : Lenience (buildDictionary build n token acc r) (buildDictionary build n token acc r.lenient) := by
  induction n generalizing token acc r with
  | zero => exact .refused _ _
  | succ n ih =>
    unfold buildDictionary
    by_cases hend : token.type = .objectEnd
    · rw [if_pos hend, if_pos hend]
      exact .same acc (r.advance token)
    · rw [if_neg hend, if_neg hend]
      by_cases hstring : token.type ≠ .string
      · rw [if_pos hstring, if_pos hstring]
        exact .refused _ _
      · rw [if_neg hstring, if_neg hstring, show r.lenient.text token = r.text token from rfl]
        cases decodeString (r.text token) with
        | none => exact .refused _ _
        | some key =>
          dsimp only
          rw [show r.lenient.advance token = (r.advance token).lenient from rfl, parseToken_lenient]
          obtain ⟨colon, r₁⟩ := (r.advance token).parseToken
          dsimp only [Prod.map_apply, id_eq]
          by_cases hcolon : colon.type ≠ .objectPairSeparator
          · rw [if_pos hcolon, if_pos hcolon]
            exact .refused _ _
          · rw [if_neg hcolon, if_neg hcolon, show r₁.lenient.advance colon = (r₁.advance colon).lenient from rfl, parseToken_lenient]
            obtain ⟨first, r₂⟩ := (r₁.advance colon).parseToken
            refine (h r₂).bind fun v r₃ => ?_
            exact (lenience_parseSeparator .objectEnd r₃).bind fun next r₄ => ih next (acc.set key v) r₄

/-- The lenient reader differs from the strict one only where a comma is not followed by a value. -/
theorem lenience_buildValue (levels : Nat) (isRoot : Bool) (r : JSONReader) :
    Lenience (buildValue levels isRoot r) (buildValue levels isRoot r.lenient) := by
  induction levels generalizing isRoot r with
  | zero => exact .refused _ _
  | succ levels ih =>
    unfold buildValue
    rw [parseToken_lenient]
    obtain ⟨token, r₁⟩ := r.parseToken
    dsimp only [Prod.map_apply, id_eq]
    by_cases hroot : isRoot = true ∧ token.type ≠ .objectBegin ∧ token.type ≠ .arrayBegin
    · rw [if_pos hroot, if_pos hroot]
      exact .refused _ _
    · rw [if_neg hroot, if_neg hroot, show r₁.lenient.text token = r₁.text token from rfl,
        show r₁.lenient.advance token = (r₁.advance token).lenient from rfl, parseToken_lenient]
      cases token.type with
      | string =>
        dsimp only
        cases decodeString (r₁.text token) with
        | none => exact .refused _ _
        | some s => exact .same _ _
      | arrayBegin =>
        obtain ⟨first, r₂⟩ := (r₁.advance token).parseToken
        exact (lenience_buildList (ih false) _ first [] r₂).bind fun values r₃ => .same _ r₃
      | objectBegin =>
        obtain ⟨first, r₂⟩ := (r₁.advance token).parseToken
        exact (lenience_buildDictionary (ih false) _ first [] r₂).bind fun entries r₃ => .same _ r₃
      | nullToken => exact .same _ _
      | boolTrue => exact .same _ _
      | boolFalse => exact .same _ _
      | number => exact .same _ _
      | _ => exact .refused _ _

theorem errorMessage_setErrorMessage (r : JSONReader) (description : String) (pos : Bytes) : ∃ line column : Nat,
    (r.setErrorMessage description pos).errorMessage =
      r.errorMessage ++ s!"Line: {line}, column: {column}" ++ description ++ "\n" := ⟨_, _, rfl⟩

theorem append_newline_ne_empty (s : String) : s ++ "\n" ≠ "" := by
  intro h
  have hlength := congrArg String.length h
  rw [String.length_append] at hlength
  exact absurd hlength (Nat.succ_ne_zero _)

/-- What the strict reader reads the lenient one reads as the same value. What only the lenient one reads has a trailing comma, and the last
line of the strict reader's message says so. -/
theorem readAndReturnError_lenient (json : Bytes) :
    (∀ v, readAndReturnError json false = .ok v → readAndReturnError json true = .ok v) ∧
    (∀ v, readAndReturnError json true = .ok v → readAndReturnError json false = .ok v ∨ ∃ (before : String) (line column : Nat),
      readAndReturnError json false = .error (before ++ s!"Line: {line}, column: {column}" ++ kTrailingComma ++ "\n")) := by
  have hvalue := lenience_buildValue kStackLimit true ⟨cStr json, cStr json, false, ""⟩
  unfold readAndReturnError jsonToValue
  by_cases hutf8 : (!isStringUTF8 (cStr json)) = true
  · rw [if_pos hutf8, if_pos hutf8]
    exact ⟨fun _ h => h, fun _ h => Or.inl h⟩
  · rw [if_neg hutf8, if_neg hutf8]
    change Lenience _ (buildValue kStackLimit true ⟨cStr json, cStr json, true, ""⟩) at hvalue
    dsimp only
    generalize buildValue kStackLimit true ⟨cStr json, cStr json, false, ""⟩ = x at hvalue ⊢
    generalize buildValue kStackLimit true ⟨cStr json, cStr json, true, ""⟩ = y at hvalue ⊢
    cases hvalue with
    | same root r =>
      dsimp only
      rw [parseToken_lenient]
      obtain ⟨token, r'⟩ := r.parseToken
      dsimp only [Prod.map_apply, id_eq]
      by_cases hend : token.type = .endOfInput
      · rw [if_pos hend, if_pos hend]
        exact ⟨fun _ h => h, fun _ h => Or.inl h⟩
      · rw [if_neg hend, if_neg hend]
        constructor <;> intro v h <;> cases h
    | refused r r' => constructor <;> intro v h <;> cases h
    | trailingComma hr x =>
      obtain ⟨before, pos, rfl⟩ := hr
      obtain ⟨line, column, hmessage⟩ := errorMessage_setErrorMessage before kTrailingComma pos
      dsimp only
      rw [hmessage, if_neg (append_newline_ne_empty _)]
      exact ⟨fun v h => (by cases h), fun v h => Or.inr ⟨_, line, column, rfl⟩⟩

end JSONReader

end Cpp
