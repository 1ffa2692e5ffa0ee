import Keyczar.Cpp.JSONReader
import Keyczar.Cpp.JSONWriter

/-!
# What the writer wrote is read again

Token by token: the text of a value, whatever follows it, is read as the value as long as the limit on the levels admits it.
-/

namespace Cpp

namespace JSONReader

open StringEscape

/-! ## Blanks -/

theorem length_skipLine_le (s : Bytes) : (skipLine s).length ≤ s.length := by
  induction s with
  | nil => exact Nat.le_refl _
  | cons c s ih =>
    unfold skipLine
    split
    · exact Nat.le_succ _
    · exact Nat.le_succ_of_le ih

theorem length_skipBlock_le (s : Bytes) : (skipBlock s).length ≤ s.length := by
  induction s with
  | nil => exact Nat.le_refl _
  | cons c s ih =>
    unfold skipBlock
    split
    · rw [List.length_tail, List.length_cons]
      omega
    · exact Nat.le_succ_of_le ih

/-- A comment is not empty. -/
theorem length_eatComment_lt {s rest : Bytes} (h : eatComment s = some rest) : rest.length < s.length := by
  unfold eatComment at h
  split at h
  · rename_i c d s
    have hline := length_skipLine_le s
    have hblock := length_skipBlock_le s
    rw [List.length_cons, List.length_cons]
    split at h
    · cases h
    · split at h
      · cases h
        omega
      · split at h
        · cases h
          omega
        · cases h
  · cases h

/-- The loop over blanks and comments ends when the text does. -/
theorem eatLoop_of_le {n m : Nat} {s : Bytes} (hn : s.length ≤ n) (hm : s.length ≤ m) : eatLoop n s = eatLoop m s := by
  induction n generalizing m s with
  | zero =>
    obtain rfl := List.length_eq_zero_iff.mp (Nat.le_zero.mp hn)
    cases m <;> rfl
  | succ n ih =>
    cases s with
    | nil => cases m <;> rfl
    | cons c s =>
      cases m with
      | zero => exact absurd hm (Nat.not_succ_le_zero _)
      | succ m =>
        unfold eatLoop
        split
        · exact ih (Nat.le_of_succ_le_succ hn) (Nat.le_of_succ_le_succ hm)
        · split
          · cases hcomment : eatComment (c :: s) with
            | none => rfl
            | some rest =>
              have hlt := length_eatComment_lt hcomment
              exact ih (by omega) (by omega)
          · rfl

theorem eat_blank_cons {c : UInt8} (h : isBlank c = true) (s : Bytes) :
    eatWhitespaceAndComments (c :: s) = eatWhitespaceAndComments s := by
  rw [eatWhitespaceAndComments, List.length_cons, eatLoop, if_pos h]
  rfl

/-- Blanks are skipped. -/
theorem eat_blanks_append {blanks : Bytes} (h : ∀ c ∈ blanks, isBlank c = true) (s : Bytes) :
    eatWhitespaceAndComments (blanks ++ s) = eatWhitespaceAndComments s := by
  induction blanks with
  | nil => rfl
  | cons c blanks ih =>
    rw [List.cons_append, eat_blank_cons (h c List.mem_cons_self), ih fun d hd => h d (List.mem_cons_of_mem c hd)]

/-- A character that starts no blanks and no comment. -/
def StartsToken (c : UInt8) : Prop := isBlank c = false ∧ c ≠ ascii '/'

instance (c : UInt8) : Decidable (StartsToken c) := inferInstanceAs (Decidable (_ ∧ _))

theorem eat_of_startsToken {c : UInt8} (h : StartsToken c) (s : Bytes) : eatWhitespaceAndComments (c :: s) = c :: s := by
  rw [eatWhitespaceAndComments, List.length_cons, eatLoop, if_neg (by rw [h.1]; decide), if_neg h.2]

/-- The token behind some blanks. -/
theorem parseToken_of_startsToken {r : JSONReader} {blanks s : Bytes} {c : UInt8} (hpos : r.jsonPos = blanks ++ c :: s)
    (hblanks : ∀ c ∈ blanks, isBlank c = true) (hc : StartsToken c) : r.parseToken = tokenOf { r with jsonPos := c :: s } c := by
  unfold parseToken
  rw [hpos, eat_blanks_append hblanks, eat_of_startsToken hc]

/-! ## Strings -/

theorem isHexDigit_hexDigit {n : Nat} (h : n < 16) : isHexDigit (hexDigit n) = true := by
  revert n
  decide

theorem hexToInt_hexDigit {n : Nat} (h : n < 16) : hexToInt (hexDigit n) = n := by
  revert n
  decide

/-- How a character is written: behind a backslash, as two hexadecimal digits, or as it is. -/
theorem quoteChar_cases (c : UInt8) :
    (∃ e, quoteChar c = [ascii '\\', e] ∧ isSingleEscape e = true ∧ e ≠ ascii 'x' ∧ e ≠ ascii 'u' ∧ singleEscape e = some c) ∨
    (∃ h₁ h₂, quoteChar c = [ascii '\\', ascii 'x', h₁, h₂] ∧ isHexDigit h₁ = true ∧ isHexDigit h₂ = true ∧
      UInt8.ofNat (hexToInt h₁ * 16 + hexToInt h₂) = c) ∨
    (quoteChar c = [c] ∧ c ≠ ascii '\\' ∧ c ≠ ascii '"') := by
  unfold quoteChar
  cases hsingle : javascriptSingleEscapeChar c with
  | some escaped =>
    left
    unfold javascriptSingleEscapeChar at hsingle
    repeat' split at hsingle
    all_goals first
      | cases hsingle
        done
      | (rename_i hc
         subst hc
         cases hsingle
         exact ⟨_, rfl, by decide, by decide, by decide, by decide⟩)
  | none =>
    right
    dsimp only
    have hne : c ≠ ascii '\\' ∧ c ≠ ascii '"' := by
      constructor
      · rintro rfl
        exact absurd hsingle (by decide)
      · rintro rfl
        exact absurd hsingle (by decide)
    split
    · left
      have hlt := c.toNat_lt
      have h₁ : c.toNat / 16 < 16 := by omega
      have h₂ : c.toNat % 16 < 16 := by omega
      refine ⟨_, _, rfl, isHexDigit_hexDigit h₁, isHexDigit_hexDigit h₂, ?_⟩
      rw [hexToInt_hexDigit h₁, hexToInt_hexDigit h₂, show c.toNat / 16 * 16 + c.toNat % 16 = c.toNat by omega, UInt8.ofNat_toNat]
    · exact Or.inr ⟨rfl, hne⟩

/-- A character that was written is scanned over. -/
theorem scanString_quoteChar (c : UInt8) (s : Bytes) (n : Nat) :
    scanString (quoteChar c ++ s) n = scanString s (n + (quoteChar c).length) := by
  rcases quoteChar_cases c with ⟨e, hq, he, hx, hu, -⟩ | ⟨h₁, h₂, hq, hh₁, hh₂, -⟩ | ⟨hq, hb, hqu⟩
  · rw [hq]
    exact scanString_single hx hu he s n
  · rw [hq]
    exact scanString_hex hh₁ hh₂ s n
  · rw [hq]
    exact scanString_plain hb hqu s n

/-- A quoted string is scanned up to the quote that ends it. -/
theorem scanString_quoted (str s : Bytes) (n : Nat) :
    scanString (str.flatMap quoteChar ++ ascii '"' :: s) n = .closed (n + (str.flatMap quoteChar).length + 1) := by
  induction str generalizing n with
  | nil => exact scanString_quote s n
  | cons c str ih =>
    rw [List.flatMap_cons, List.append_assoc, scanString_quoteChar, ih, List.length_append, Nat.add_assoc n]

theorem decodeChars_quoteChar (c : UInt8) (s : Bytes) : decodeChars (quoteChar c ++ s) = (decodeChars s).map (c :: ·) := by
  rcases quoteChar_cases c with ⟨e, hq, -, hx, hu, he⟩ | ⟨h₁, h₂, hq, -, -, hh⟩ | ⟨hq, hb, -⟩
  · rw [hq]
    exact (decodeChars_single hx hu s).trans (by rw [he, Option.bind_some])
  · rw [hq]
    exact (decodeChars_hex h₁ h₂ s).trans (by rw [hh])
  · rw [hq]
    exact decodeChars_plain hb s

/-- The characters of a quoted string are the string. -/
theorem decodeChars_quoted (str : Bytes) : decodeChars (str.flatMap quoteChar) = some str := by
  induction str with
  | nil => rfl
  | cons c str ih => rw [List.flatMap_cons, decodeChars_quoteChar, ih, Option.map_some]

theorem length_javascriptDoubleQuote (str : Bytes) :
    (javascriptDoubleQuote str).length = (str.flatMap quoteChar).length + 2 := by
  rw [javascriptDoubleQuote, List.length_append, List.length_cons]
  rfl

theorem decodeString_javascriptDoubleQuote (str : Bytes) : decodeString (javascriptDoubleQuote str) = some str := by
  rw [decodeString, length_javascriptDoubleQuote, Nat.add_sub_cancel, javascriptDoubleQuote, List.cons_append, List.drop_one,
    List.tail_cons, List.take_left, decodeChars_quoted]

/-- The token of a quoted string, with its text. -/
theorem tokenOf_quoted {r : JSONReader} {str s : Bytes} (hpos : r.jsonPos = javascriptDoubleQuote str ++ s) :
    r.tokenOf (ascii '"') = (⟨.string, (javascriptDoubleQuote str).length⟩, r) := by
  have hdrop : r.jsonPos.drop 1 = str.flatMap quoteChar ++ ascii '"' :: s := by
    rw [hpos, javascriptDoubleQuote, List.cons_append, List.cons_append, List.drop_one, List.tail_cons, List.append_assoc]
    rfl
  show r.parseStringToken = _
  unfold parseStringToken
  rw [hdrop, scanString_quoted, length_javascriptDoubleQuote]
  dsimp only
  rw [Nat.add_comm 1, Nat.add_assoc]

/-! ## Numbers -/

/-- What can stand behind a number in a text. -/
def NumberEnds (s : Bytes) : Prop :=
  ∀ c, s.head? = some c → Decimal.isDigit c = false ∧ c ≠ ascii '.' ∧ c ≠ ascii 'e' ∧ c ≠ ascii 'E'

theorem NumberEnds.stops {s : Bytes} (h : NumberEnds s) : Decimal.Stops s := fun c hc => (h c hc).1

theorem readInt_encode {n : Nat} {s : Bytes} (h : NumberEnds s) :
    readInt (Decimal.encode n ++ s) false = some (Decimal.encode n).length := by
  unfold readInt
  dsimp only
  rw [Decimal.takeWhile_encode_append h.stops, if_neg (by rw [List.length_eq_zero_iff]; exact Decimal.encode_ne_nil n), if_neg]
  rintro ⟨-, hlt, hhead⟩
  rw [List.head?_append_of_ne_nil _ (Decimal.encode_ne_nil n)] at hhead
  exact absurd (Decimal.length_encode_of_head_eq hhead) (by omega)

theorem readFraction_of_numberEnds {s t : Bytes} (h : NumberEnds s) : readFraction (t ++ s) t.length = some t.length := by
  unfold readFraction
  rw [List.drop_left, if_neg]
  intro hc
  exact (h _ hc).2.1 rfl

theorem readExponent_of_numberEnds {s t : Bytes} (h : NumberEnds s) : readExponent (t ++ s) t.length = some t.length := by
  unfold readExponent
  dsimp only
  rw [List.drop_left, if_neg]
  rintro (hc | hc)
  · exact (h _ hc).2.2.1 rfl
  · exact (h _ hc).2.2.2 rfl

/-- The token of an integer is all of its text. -/
theorem parseNumberToken_intToString (n : Int) {s : Bytes} (h : NumberEnds s) :
    parseNumberToken (intToString n ++ s) = ⟨.number, (intToString n).length⟩ := by
  have hint : ((readInt ((intToString n ++ s).drop (if (intToString n ++ s).head? = some (ascii '-') then 1 else 0)) false).map
      ((if (intToString n ++ s).head? = some (ascii '-') then 1 else 0) + ·)) = some (intToString n).length := by
    unfold intToString Decimal.encodeInt
    by_cases hneg : n < 0
    · rw [if_pos hneg]
      rw [if_pos (show (45 :: Decimal.encode n.natAbs ++ s).head? = some (ascii '-') from rfl)]
      rw [List.cons_append, List.drop_one, List.tail_cons, readInt_encode h, Option.map_some, List.length_cons, Nat.add_comm]
    · obtain ⟨c, t, ht, hc⟩ := Decimal.exists_encode_eq_cons n.natAbs
      have hhead : (Decimal.encode n.natAbs ++ s).head? ≠ some (ascii '-') := by
        rw [ht]
        intro heq
        rw [Option.some.inj heq] at hc
        exact absurd hc (by decide)
      rw [if_neg hneg, if_neg hhead, List.drop_zero, readInt_encode h, Option.map_some, Nat.zero_add]
  unfold parseNumberToken
  dsimp only
  rw [hint, Option.bind_some, readFraction_of_numberEnds h, Option.bind_some, readExponent_of_numberEnds h]

/-! ## The first token of a value -/

theorem numberEnds_nil : NumberEnds [] := by
  intro c hc
  cases hc

theorem numberEnds_cons {c : UInt8} (h : Decimal.isDigit c = false ∧ c ≠ ascii '.' ∧ c ≠ ascii 'e' ∧ c ≠ ascii 'E') (s : Bytes) :
    NumberEnds (c :: s) := by
  intro d hd
  obtain rfl := Option.some.inj hd
  exact h

/-- The token that the text of a value starts with. -/
def firstToken : Value → Token
  | .null => ⟨.nullToken, 4⟩
  | .boolean true => ⟨.boolTrue, 4⟩
  | .boolean false => ⟨.boolFalse, 5⟩
  | .integer n => ⟨.number, (intToString n).length⟩
  | .string s => ⟨.string, (javascriptDoubleQuote s).length⟩
  | .list _ => ⟨.arrayBegin, 1⟩
  | .dictionary _ => ⟨.objectBegin, 1⟩

/-- A number starts with a character of its own. -/
theorem of_isDigit_or_minus {c : UInt8} (h : Decimal.isDigit c = true ∨ c = ascii '-') :
    StartsToken c ∧ ∀ r : JSONReader, r.tokenOf c = (parseNumberToken r.jsonPos, r) := by
  have hne := forall_byte (p := fun c => Decimal.isDigit c = true ∨ c = ascii '-' → StartsToken c ∧ c ≠ ascii 'n' ∧ c ≠ ascii 't' ∧
    c ≠ ascii 'f' ∧ c ≠ ascii '[' ∧ c ≠ ascii ']' ∧ c ≠ ascii ',' ∧ c ≠ ascii '\x7b' ∧ c ≠ ascii '\x7d' ∧ c ≠ ascii ':')
    (by decide +kernel) c h
  obtain ⟨hstarts, hn, ht, hf, hopen, hclose, hcomma, hbrace, hbrace', hcolon⟩ := hne
  refine ⟨hstarts, ?_⟩
  intro r
  rw [tokenOf, if_neg hn, if_neg ht, if_neg hf, if_neg hopen, if_neg hclose, if_neg hcomma, if_neg hbrace, if_neg hbrace',
    if_neg hcolon, if_pos h]

theorem exists_intToString_eq_cons (n : Int) : ∃ c s, intToString n = c :: s ∧ (Decimal.isDigit c = true ∨ c = ascii '-') := by
  unfold intToString Decimal.encodeInt
  split
  · exact ⟨_, _, rfl, Or.inr rfl⟩
  · obtain ⟨c, s, hs, hc⟩ := Decimal.exists_encode_eq_cons n.natAbs
    exact ⟨c, s, hs, Or.inl hc⟩

/-- Behind blanks the first token of a value is found. -/
theorem parseToken_buildJSONString (v : Value) (p : Bool) (depth : Nat) {r : JSONReader} {blanks rest : Bytes}
    (hpos : r.jsonPos = blanks ++ (JSONWriter.buildJSONString p depth v ++ rest)) (hblanks : ∀ c ∈ blanks, isBlank c = true)
    (hrest : NumberEnds rest) : r.parseToken = (firstToken v, { r with jsonPos := JSONWriter.buildJSONString p depth v ++ rest }) := by
  cases v with
  | null =>
    rw [JSONWriter.buildJSONString] at hpos ⊢
    exact parseToken_of_startsToken hpos hblanks (by decide)
  | boolean b =>
    rw [JSONWriter.buildJSONString] at hpos ⊢
    cases b with
    | false => exact parseToken_of_startsToken hpos hblanks (by decide)
    | true => exact parseToken_of_startsToken hpos hblanks (by decide)
  | integer n =>
    rw [JSONWriter.buildJSONString] at hpos ⊢
    obtain ⟨c, s, hs, hc⟩ := exists_intToString_eq_cons n
    obtain ⟨hstarts, htoken⟩ := of_isDigit_or_minus hc
    have hnumber := parseNumberToken_intToString n hrest
    rw [hs] at hpos hnumber ⊢
    rw [parseToken_of_startsToken hpos hblanks hstarts, htoken]
    show (parseNumberToken (c :: s ++ rest), _) = _
    rw [hnumber, firstToken, hs]
    rfl
  | string s =>
    rw [JSONWriter.buildJSONString] at hpos ⊢
    exact (parseToken_of_startsToken hpos hblanks (by decide)).trans (tokenOf_quoted rfl)
  | list vs =>
    rw [JSONWriter.buildJSONString] at hpos ⊢
    exact parseToken_of_startsToken hpos hblanks (by decide)
  | dictionary es =>
    rw [JSONWriter.buildJSONString] at hpos ⊢
    exact parseToken_of_startsToken hpos hblanks (by decide)

end JSONReader

end Cpp
