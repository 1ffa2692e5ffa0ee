import Keyczar.Cpp.JSONTexts
import Keyczar.Lib.Throwing

/-!
# Values as text and back

A value that the library can make is read from its text as it was, if it has at most as many levels as the reader admits and its strings
are UTF-8, and refused if not.
-/

namespace Cpp

namespace JSONReader

open StringEscape Entries
open scoped Characters
open JSONWriter (ifPretty indentLine kPrettyPrintLineEnding buildJSONString buildRest buildEntry buildEntries)

/-! ## Between two values -/

theorem isBlank_of_mem_ifPretty (p : Bool) {s : Bytes} (h : ∀ c ∈ s, isBlank c = true) : ∀ c ∈ ifPretty p s, isBlank c = true := by
  intro c hc
  cases p with
  | false => cases hc
  | true => exact h c hc

theorem isBlank_of_mem_space (p : Bool) : ∀ c ∈ ifPretty p (asciiString " "), isBlank c = true :=
  isBlank_of_mem_ifPretty p (by decide)

theorem isBlank_of_mem_indentLine (depth : Nat) : ∀ c ∈ indentLine depth, isBlank c = true := by
  intro c hc
  rw [List.eq_of_mem_replicate hc]
  decide

theorem isBlank_of_mem_lineEnding : ∀ c ∈ kPrettyPrintLineEnding, isBlank c = true := by decide

theorem isBlank_of_mem_append {s t : Bytes} (hs : ∀ c ∈ s, isBlank c = true) (ht : ∀ c ∈ t, isBlank c = true) :
    ∀ c ∈ s ++ t, isBlank c = true := by
  intro c hc
  rcases List.mem_append.mp hc with hc | hc
  · exact hs c hc
  · exact ht c hc

theorem ne_of_isBlank {c : UInt8} (h : isBlank c = true) :
    Decimal.isDigit c = false ∧ c ≠ ascii '.' ∧ c ≠ ascii 'e' ∧ c ≠ ascii 'E' :=
  forall_byte (p := fun c => isBlank c = true → Decimal.isDigit c = false ∧ c ≠ ascii '.' ∧ c ≠ ascii 'e' ∧ c ≠ ascii 'E')
    (by decide +kernel) c h

/-- A number ends at blanks. -/
theorem numberEnds_blanks_append {blanks s : Bytes} (hblanks : ∀ c ∈ blanks, isBlank c = true) (hs : NumberEnds s) :
    NumberEnds (blanks ++ s) := by
  cases blanks with
  | nil => exact hs
  | cons c blanks => exact numberEnds_cons (ne_of_isBlank (hblanks c List.mem_cons_self)) _

/-- A character that is a token alone. -/
def IsToken (c : UInt8) (type : TokenType) : Prop := StartsToken c ∧ ∀ r : JSONReader, r.tokenOf c = (⟨type, 1⟩, r)

theorem isToken_arrayEnd : IsToken (ascii ']') .arrayEnd := ⟨by decide, fun _ => rfl⟩

theorem isToken_objectEnd : IsToken (ascii '\x7d') .objectEnd := ⟨by decide, fun _ => rfl⟩

theorem isToken_listSeparator : IsToken (ascii ',') .listSeparator := ⟨by decide, fun _ => rfl⟩

theorem isToken_objectPairSeparator : IsToken (ascii ':') .objectPairSeparator := ⟨by decide, fun _ => rfl⟩

theorem IsToken.parseToken {c : UInt8} {type : TokenType} (h : IsToken c type) {r : JSONReader} {blanks s : Bytes}
    (hpos : r.jsonPos = blanks ++ c :: s) (hblanks : ∀ c ∈ blanks, isBlank c = true) :
    r.parseToken = (⟨type, 1⟩, { r with jsonPos := c :: s }) := by
  rw [parseToken_of_startsToken hpos hblanks h.1, h.2]

/-- Behind the last value the end is found. -/
theorem parseSeparator_of_close {c : UInt8} {close : TokenType} (h : IsToken c close) (hne : close ≠ .listSeparator) {r : JSONReader}
    {blanks s : Bytes} (hpos : r.jsonPos = blanks ++ c :: s) (hblanks : ∀ c ∈ blanks, isBlank c = true) :
    parseSeparator close r = .ok (⟨close, 1⟩, { r with jsonPos := c :: s }) := by
  unfold parseSeparator
  rw [h.parseToken hpos hblanks]
  dsimp only
  rw [if_neg hne, if_neg (not_not_intro rfl)]

/-- Behind a comma the next token is found, if it does not end what the comma is in. -/
theorem parseSeparator_of_comma {close : TokenType} {r r' : JSONReader} {s : Bytes} {token : Token} (hpos : r.jsonPos = ascii ',' :: s)
    (hnext : ({ r with jsonPos := s } : JSONReader).parseToken = (token, r')) (hne : token.type ≠ close) :
    parseSeparator close r = .ok (token, r') := by
  have hnext' : (({ r with jsonPos := ascii ',' :: s } : JSONReader).advance ⟨.listSeparator, 1⟩).parseToken = (token, r') := hnext
  unfold parseSeparator
  rw [isToken_listSeparator.parseToken (show r.jsonPos = [] ++ ascii ',' :: s from hpos) (List.forall_mem_nil _)]
  dsimp only
  rw [if_pos rfl, if_neg, hnext']
  rw [hnext']
  rintro ⟨hclose, -⟩
  exact hne hclose

theorem firstToken_ne (v : Value) : (firstToken v).type ≠ .arrayEnd ∧ (firstToken v).type ≠ .objectEnd := by
  cases v with
  | boolean b => cases b <;> exact ⟨by decide, by decide⟩
  | _ => exact ⟨TokenType.noConfusion, TokenType.noConfusion⟩

/-! ## The loops -/

/-- A function reads a text that stands for a value, and what is behind it is left; or it refuses the text. -/
def Reads (build : Build Value) (ok : Prop) (s : Bytes) (v : Value) : Prop :=
  ∀ ⦃r : JSONReader⦄ ⦃rest : Bytes⦄, r.jsonPos = s ++ rest → NumberEnds rest →
    (ok → build r = .ok (v, { r with jsonPos := rest })) ∧ (¬ok → ∃ r', build r = .error r')

/-- What a list ends with. -/
def listEnd (p : Bool) (rest : Bytes) : Bytes := ifPretty p (asciiString " ") ++ ascii ']' :: rest

theorem numberEnds_listEnd (p : Bool) (rest : Bytes) : NumberEnds (listEnd p rest) :=
  numberEnds_blanks_append (isBlank_of_mem_space p) (numberEnds_cons (by decide) rest)

theorem numberEnds_buildRest (p : Bool) (depth : Nat) (vs : List Value) {s : Bytes} (hs : NumberEnds s) :
    NumberEnds (buildRest p depth vs ++ s) := by
  cases vs with
  | nil => exact hs
  | cons v vs =>
    rw [buildRest]
    exact numberEnds_cons (by decide) _

/-- The loop over a list reads the values one after the other. -/
theorem buildList_write {build : Build Value} {ok : Value → Prop} {p : Bool} {depth : Nat} {vs : List Value} {v : Value}
    (h : ∀ w ∈ v :: vs, Reads build (ok w) (buildJSONString p depth w) w) {n : Nat} (hn : vs.length + 2 ≤ n) {token : Token}
    (htoken : token.type ≠ .arrayEnd) (acc : List Value) {r : JSONReader} {rest : Bytes}
    (hpos : r.jsonPos = buildJSONString p depth v ++ (buildRest p depth vs ++ listEnd p rest)) :
    ((∀ w ∈ v :: vs, ok w) → buildList build n token acc r = .ok (acc ++ v :: vs, { r with jsonPos := rest })) ∧
      (¬(∀ w ∈ v :: vs, ok w) → ∃ r', buildList build n token acc r = .error r') := by
  induction vs generalizing v n token acc r with
  | nil =>
    obtain ⟨n, rfl⟩ : ∃ m, n = m + 2 := ⟨n - 2, by simp at hn; omega⟩
    rw [buildRest, List.nil_append] at hpos
    obtain ⟨hread, hrefused⟩ := h v List.mem_cons_self hpos (numberEnds_listEnd p rest)
    rw [buildList, if_neg htoken, List.forall_mem_singleton]
    constructor
    · intro hok
      rw [hread hok, Throwing.ok_bind]
      dsimp only
      rw [parseSeparator_of_close isToken_arrayEnd (by decide) rfl (isBlank_of_mem_space p), Throwing.ok_bind]
      rfl
    · intro hok
      obtain ⟨r', hr'⟩ := hrefused hok
      rw [hr']
      exact ⟨r', rfl⟩
  | cons w vs ih =>
    obtain ⟨n, rfl⟩ : ∃ m, n = m + 1 := ⟨n - 1, by simp at hn; omega⟩
    obtain ⟨hread, hrefused⟩ := h v List.mem_cons_self hpos (numberEnds_buildRest p depth _ (numberEnds_listEnd p rest))
    rw [buildList, if_neg htoken, List.forall_mem_cons]
    by_cases hok : ok v
    · rw [hread hok, Throwing.ok_bind]
      dsimp only
      have hends := numberEnds_buildRest p depth vs (numberEnds_listEnd p rest)
      have hrest : buildRest p depth (w :: vs) ++ listEnd p rest = ascii ',' :: (ifPretty p (asciiString " ") ++
          (buildJSONString p depth w ++ (buildRest p depth vs ++ listEnd p rest))) := by
        rw [buildRest]
        simp only [List.append_assoc]
        rfl
      rw [parseSeparator_of_comma hrest
        (parseToken_buildJSONString w p depth rfl (isBlank_of_mem_space p) hends) (firstToken_ne w).1, Throwing.ok_bind]
      obtain ⟨hall, hsome⟩ := ih (fun u hu => h u (List.mem_cons_of_mem v hu)) (n := n) (by simp at hn ⊢; omega) (firstToken_ne w).1
        (acc ++ [v]) (r := { r with jsonPos := buildJSONString p depth w ++ (buildRest p depth vs ++ listEnd p rest) }) rfl
      refine ⟨?_, fun hno => hsome fun hws => hno ⟨hok, hws⟩⟩
      rintro ⟨-, hws⟩
      rw [List.append_cons acc v (w :: vs)]
      exact hall hws
    · obtain ⟨r', hr'⟩ := hrefused hok
      rw [hr']
      exact ⟨fun hall => absurd hall.1 hok, fun _ => ⟨r', rfl⟩⟩

/-- The text of an entry behind its key. -/
def entryTail (p : Bool) (depth : Nat) (v : Value) : Bytes :=
  (if p then asciiString ": " else asciiString ":") ++ buildJSONString p (depth + 1) v

/-- What a dictionary ends with. -/
def dictionaryEnd (p : Bool) (depth : Nat) (rest : Bytes) : Bytes :=
  ifPretty p (kPrettyPrintLineEnding ++ indentLine depth) ++ ascii '\x7d' :: rest

theorem isBlank_of_mem_dictionaryEnd (p : Bool) (depth : Nat) :
    ∀ c ∈ ifPretty p (kPrettyPrintLineEnding ++ indentLine depth), isBlank c = true :=
  isBlank_of_mem_ifPretty p (isBlank_of_mem_append isBlank_of_mem_lineEnding (isBlank_of_mem_indentLine depth))

theorem numberEnds_dictionaryEnd (p : Bool) (depth : Nat) (rest : Bytes) : NumberEnds (dictionaryEnd p depth rest) :=
  numberEnds_blanks_append (isBlank_of_mem_dictionaryEnd p depth) (numberEnds_cons (by decide) rest)

theorem numberEnds_buildEntries (p : Bool) (depth : Nat) (es : Entries) {s : Bytes} (hs : NumberEnds s) :
    NumberEnds (buildEntries p depth es ++ s) := by
  cases es with
  | nil => exact hs
  | cons e es =>
    rw [buildEntries]
    exact numberEnds_cons (by decide) _

/-- The token of a key behind blanks. -/
theorem parseToken_quoted {r : JSONReader} {blanks str s : Bytes} (hpos : r.jsonPos = blanks ++ (javascriptDoubleQuote str ++ s))
    (hblanks : ∀ c ∈ blanks, isBlank c = true) :
    r.parseToken = (⟨.string, (javascriptDoubleQuote str).length⟩, { r with jsonPos := javascriptDoubleQuote str ++ s }) :=
  (parseToken_of_startsToken hpos hblanks (by decide)).trans (tokenOf_quoted rfl)

/-- One turn of the loop over a dictionary, up to its value. -/
theorem buildDictionary_entry {build : Build Value} {n : Nat} {acc : Entries} {r : JSONReader} {key s : Bytes} {p : Bool} {depth : Nat}
    {v : Value} (hpos : r.jsonPos = javascriptDoubleQuote key ++ (entryTail p depth v ++ s)) (hs : NumberEnds s) :
    buildDictionary build (n + 1) ⟨.string, (javascriptDoubleQuote key).length⟩ acc r = (do
      let (dictValue, r) ← build { r with jsonPos := buildJSONString p (depth + 1) v ++ s }
      let (token, r) ← parseSeparator .objectEnd r
      buildDictionary build n token (acc.set key dictValue) r) := by
  have hcolon : entryTail p depth v ++ s = ascii ':' :: (ifPretty p (asciiString " ") ++ (buildJSONString p (depth + 1) v ++ s)) := by
    cases p <;> rfl
  have hdrop : r.jsonPos.drop (javascriptDoubleQuote key).length = entryTail p depth v ++ s := by rw [hpos, List.drop_left]
  have htext : r.text ⟨.string, (javascriptDoubleQuote key).length⟩ = javascriptDoubleQuote key := by
    show r.jsonPos.take _ = _
    rw [hpos, List.take_left]
  have hpair : (r.advance ⟨.string, (javascriptDoubleQuote key).length⟩).parseToken =
      (⟨.objectPairSeparator, 1⟩, { r with jsonPos := entryTail p depth v ++ s }) := by
    rw [hcolon]
    exact isToken_objectPairSeparator.parseToken (show _ = [] ++ _ from hdrop.trans hcolon) (List.forall_mem_nil _)
  have hvalue : (({ r with jsonPos := entryTail p depth v ++ s } : JSONReader).advance ⟨.objectPairSeparator, 1⟩).parseToken =
      (firstToken v, { r with jsonPos := buildJSONString p (depth + 1) v ++ s }) := by
    rw [hcolon]
    exact parseToken_buildJSONString v p (depth + 1) rfl (isBlank_of_mem_space p) hs
  rw [buildDictionary, if_neg TokenType.noConfusion, if_neg (not_not_intro rfl), htext, decodeString_javascriptDoubleQuote]
  dsimp only
  rw [hpair, if_neg (not_not_intro rfl)]
  dsimp only
  rw [hvalue]

/-- The entry of a key that is above all is put behind them. -/
theorem set_append {acc es : Entries} {e : Bytes × Value} (h : (acc ++ e :: es).Pairwise fun e e' => e.1 < e'.1) (hdot : 46 ∉ e.1) :
    acc.set e.1 e.2 = acc ++ [e] := by
  rw [set_of_not_mem hdot]
  refine OrderedMap.insertEntry_of_forall_lt ?_ e.2
  intro e' he'
  exact (List.pairwise_append.mp h).2.2 e' he' e List.mem_cons_self

/-- The loop over a dictionary reads the entries one after the other, and puts each behind the ones before it. -/
theorem buildDictionary_write {build : Build Value} {ok : Value → Prop} {p : Bool} {depth : Nat} {es : Entries} {e : Bytes × Value}
    (h : ∀ e' ∈ e :: es, Reads build (ok e'.2) (buildJSONString p (depth + 1) e'.2) e'.2) {n : Nat} (hn : es.length + 2 ≤ n)
    (acc : Entries) (hsorted : (acc ++ e :: es).Pairwise fun e e' => e.1 < e'.1) (hdots : ∀ e' ∈ e :: es, 46 ∉ e'.1)
    {r : JSONReader} {rest : Bytes} (hpos : r.jsonPos = javascriptDoubleQuote e.1 ++
      (entryTail p depth e.2 ++ (buildEntries p depth es ++ dictionaryEnd p depth rest))) :
    ((∀ e' ∈ e :: es, ok e'.2) → buildDictionary build n ⟨.string, (javascriptDoubleQuote e.1).length⟩ acc r =
        .ok (acc ++ e :: es, { r with jsonPos := rest })) ∧
      (¬(∀ e' ∈ e :: es, ok e'.2) →
        ∃ r', buildDictionary build n ⟨.string, (javascriptDoubleQuote e.1).length⟩ acc r = .error r') := by
  induction es generalizing e n acc r with
  | nil =>
    obtain ⟨n, rfl⟩ : ∃ m, n = m + 2 := ⟨n - 2, by simp at hn; omega⟩
    rw [buildEntries, List.nil_append] at hpos
    have hends := numberEnds_dictionaryEnd p depth rest
    obtain ⟨hread, hrefused⟩ := h e List.mem_cons_self
      (r := { r with jsonPos := buildJSONString p (depth + 1) e.2 ++ dictionaryEnd p depth rest }) rfl hends
    rw [buildDictionary_entry hpos hends, List.forall_mem_singleton]
    constructor
    · intro hok
      rw [hread hok, Throwing.ok_bind]
      dsimp only
      rw [parseSeparator_of_close isToken_objectEnd (by decide) rfl (isBlank_of_mem_dictionaryEnd p depth), Throwing.ok_bind,
        set_append hsorted (hdots e List.mem_cons_self)]
      rfl
    · intro hok
      obtain ⟨r', hr'⟩ := hrefused hok
      rw [hr']
      exact ⟨r', rfl⟩
  | cons e' es ih =>
    obtain ⟨n, rfl⟩ : ∃ m, n = m + 1 := ⟨n - 1, by simp at hn; omega⟩
    have hends := numberEnds_buildEntries p depth (e' :: es) (numberEnds_dictionaryEnd p depth rest)
    obtain ⟨hread, hrefused⟩ := h e List.mem_cons_self
      (r := { r with jsonPos := buildJSONString p (depth + 1) e.2 ++ (buildEntries p depth (e' :: es) ++ dictionaryEnd p depth rest) })
      rfl hends
    rw [buildDictionary_entry hpos hends, List.forall_mem_cons]
    by_cases hok : ok e.2
    · rw [hread hok, Throwing.ok_bind]
      dsimp only
      have hrest : buildEntries p depth (e' :: es) ++ dictionaryEnd p depth rest =
          ascii ',' :: ((ifPretty p kPrettyPrintLineEnding ++ ifPretty p (indentLine (depth + 1))) ++
            (javascriptDoubleQuote e'.1 ++ (entryTail p depth e'.2 ++ (buildEntries p depth es ++ dictionaryEnd p depth rest)))) := by
        rw [buildEntries, buildEntry, entryTail]
        simp only [List.append_assoc]
        rfl
      rw [parseSeparator_of_comma hrest (parseToken_quoted rfl (isBlank_of_mem_append (isBlank_of_mem_ifPretty p isBlank_of_mem_lineEnding)
        (isBlank_of_mem_ifPretty p (isBlank_of_mem_indentLine (depth + 1))))) TokenType.noConfusion, Throwing.ok_bind,
        set_append hsorted (hdots e List.mem_cons_self)]
      have hsorted' : ((acc ++ [e]) ++ e' :: es).Pairwise fun e e' => e.1 < e'.1 := by rwa [List.append_cons acc e (e' :: es)] at hsorted
      obtain ⟨hall, hsome⟩ := ih (fun u hu => h u (List.mem_cons_of_mem e hu)) (n := n) (by simp at hn ⊢; omega) (acc ++ [e]) hsorted'
        (fun u hu => hdots u (List.mem_cons_of_mem e hu))
        (r := { r with jsonPos := javascriptDoubleQuote e'.1 ++
          (entryTail p depth e'.2 ++ (buildEntries p depth es ++ dictionaryEnd p depth rest)) }) rfl
      refine ⟨?_, fun hno => hsome fun hes => hno ⟨hok, hes⟩⟩
      rintro ⟨-, hes⟩
      rw [List.append_cons acc e (e' :: es)]
      exact hall hes
    · obtain ⟨r', hr'⟩ := hrefused hok
      rw [hr']
      exact ⟨fun hall => absurd hall.1 hok, fun _ => ⟨r', rfl⟩⟩

/-! ## Values -/

theorem length_buildRest (p : Bool) (depth : Nat) (vs : List Value) (s : Bytes) : vs.length ≤ (buildRest p depth vs ++ s).length := by
  induction vs with
  | nil => exact Nat.zero_le _
  | cons v vs ih =>
    have hone : (asciiString ",").length = 1 := rfl
    rw [buildRest]
    simp only [List.length_append, List.length_cons] at ih ⊢
    omega

theorem length_buildEntries (p : Bool) (depth : Nat) (es : Entries) (s : Bytes) :
    es.length ≤ (buildEntries p depth es ++ s).length := by
  induction es with
  | nil => exact Nat.zero_le _
  | cons e es ih =>
    have hone : (asciiString ",").length = 1 := rfl
    rw [buildEntries]
    simp only [List.length_append, List.length_cons] at ih ⊢
    omega

theorem length_buildJSONString_pos (p : Bool) (depth : Nat) (v : Value) : 0 < (buildJSONString p depth v).length := by
  rw [List.length_pos_iff]
  cases v with
  | integer n =>
    obtain ⟨c, s, hs, -⟩ := exists_intToString_eq_cons n
    rw [buildJSONString, hs]
    exact List.cons_ne_nil c s
  | boolean b =>
    rw [buildJSONString]
    cases b <;> exact List.cons_ne_nil _ _
  | _ =>
    rw [buildJSONString]
    exact List.cons_ne_nil _ _

theorem text_append (r : JSONReader) (type : TokenType) (s rest : Bytes) :
    ({ r with jsonPos := s ++ rest } : JSONReader).text ⟨type, s.length⟩ = s := List.take_left

theorem advance_append (r : JSONReader) (type : TokenType) (s rest : Bytes) :
    ({ r with jsonPos := s ++ rest } : JSONReader).advance ⟨type, s.length⟩ = { r with jsonPos := rest } := by
  rw [advance, List.drop_left]

/-- The list of no values. -/
theorem parseToken_list_nil (p : Bool) {depth : Nat} {r : JSONReader} {rest : Bytes} :
    (({ r with jsonPos := buildJSONString p depth (.list []) ++ rest } : JSONReader).advance ⟨.arrayBegin, 1⟩).parseToken =
      (⟨.arrayEnd, 1⟩, { r with jsonPos := ascii ']' :: rest }) := by
  refine isToken_arrayEnd.parseToken (r := ({ r with jsonPos := _ } : JSONReader).advance _) ?_
    (isBlank_of_mem_append (isBlank_of_mem_space p) (isBlank_of_mem_space p))
  rw [buildJSONString, JSONWriter.buildList]
  simp only [advance, List.append_assoc, List.nil_append]
  rfl

/-- The list of some values, up to the first of them. -/
theorem parseToken_list_cons (p : Bool) {depth : Nat} {r : JSONReader} {rest : Bytes} (v : Value) (vs : List Value) :
    (({ r with jsonPos := buildJSONString p depth (.list (v :: vs)) ++ rest } : JSONReader).advance ⟨.arrayBegin, 1⟩).parseToken =
      (firstToken v, { r with jsonPos := buildJSONString p depth v ++ (buildRest p depth vs ++ listEnd p rest) }) := by
  refine parseToken_buildJSONString v p depth (r := ({ r with jsonPos := _ } : JSONReader).advance _) ?_
    (isBlank_of_mem_space p) (numberEnds_buildRest p depth vs (numberEnds_listEnd p rest))
  rw [buildJSONString, JSONWriter.buildList, listEnd]
  simp only [advance, List.append_assoc]
  rfl

/-- The dictionary of no entries. -/
theorem parseToken_dictionary_nil (p : Bool) {depth : Nat} {r : JSONReader} {rest : Bytes} :
    (({ r with jsonPos := buildJSONString p depth (.dictionary []) ++ rest } : JSONReader).advance ⟨.objectBegin, 1⟩).parseToken =
      (⟨.objectEnd, 1⟩, { r with jsonPos := ascii '\x7d' :: rest }) := by
  refine isToken_objectEnd.parseToken (r := ({ r with jsonPos := _ } : JSONReader).advance _) ?_
    (isBlank_of_mem_append (isBlank_of_mem_ifPretty p isBlank_of_mem_lineEnding) (isBlank_of_mem_dictionaryEnd p depth))
  rw [buildJSONString, JSONWriter.buildDictionary]
  simp only [advance, List.append_assoc, List.nil_append]
  rfl

/-- The dictionary of some entries, up to the first key. -/
theorem parseToken_dictionary_cons (p : Bool) {depth : Nat} {r : JSONReader} {rest : Bytes} (e : Bytes × Value) (es : Entries) :
    (({ r with jsonPos := buildJSONString p depth (.dictionary (e :: es)) ++ rest } : JSONReader).advance ⟨.objectBegin, 1⟩).parseToken =
      (⟨.string, (javascriptDoubleQuote e.1).length⟩, { r with jsonPos := javascriptDoubleQuote e.1 ++
        (entryTail p depth e.2 ++ (buildEntries p depth es ++ dictionaryEnd p depth rest)) }) := by
  refine parseToken_quoted (r := ({ r with jsonPos := _ } : JSONReader).advance _) ?_
    (isBlank_of_mem_append (isBlank_of_mem_ifPretty p isBlank_of_mem_lineEnding)
      (isBlank_of_mem_ifPretty p (isBlank_of_mem_indentLine (depth + 1))))
  rw [buildJSONString, JSONWriter.buildDictionary, buildEntry, entryTail, dictionaryEnd]
  simp only [advance, List.append_assoc]
  rfl

/-- A value is read from its text when it has few enough levels. The induction is on the levels that are left. -/
theorem reads_buildJSONString (p : Bool) (levels depth : Nat) (isRoot : Bool) {v : Value} (hv : v.Proper)
    (hroot : isRoot = true → v.isRoot = true) : Reads (buildValue levels isRoot) (v.Within levels) (buildJSONString p depth v) v := by
  induction levels generalizing depth isRoot v with
  | zero =>
    intro r rest hpos hrest
    exact ⟨False.elim, fun _ => ⟨_, rfl⟩⟩
  | succ levels ih =>
    intro r rest hpos hrest
    have htoken := parseToken_buildJSONString v p depth (show r.jsonPos = [] ++ _ from hpos) (List.forall_mem_nil _) hrest
    have hisRoot : ¬(isRoot = true ∧ (firstToken v).type ≠ .objectBegin ∧ (firstToken v).type ≠ .arrayBegin) := by
      rintro ⟨his, hobject, harray⟩
      have hvroot := hroot his
      cases v with
      | list vs => exact harray rfl
      | dictionary es => exact hobject rfl
      | _ => cases hvroot
    unfold buildValue
    rw [htoken]
    dsimp only
    rw [if_neg hisRoot]
    cases v with
    | null =>
      refine ⟨fun _ => ?_, fun hno => absurd trivial hno⟩
      rw [buildJSONString]
      rfl
    | boolean b =>
      refine ⟨fun _ => ?_, fun hno => absurd trivial hno⟩
      rw [buildJSONString]
      cases b <;> rfl
    | integer n =>
      refine ⟨fun _ => ?_, fun hno => absurd trivial hno⟩
      have hn : InIntRange n := by
        cases hv with
        | integer hn => exact hn
      rw [buildJSONString]
      show Except.ok (decodeNumber ((intToString n ++ rest).take (intToString n).length),
        { r with jsonPos := (intToString n ++ rest).drop (intToString n).length }) = _
      rw [List.take_left, List.drop_left, decodeNumber, strto32_intToString hn]
    | string str =>
      refine ⟨fun _ => ?_, fun hno => absurd trivial hno⟩
      rw [buildJSONString]
      dsimp only [firstToken]
      rw [text_append, advance_append, decodeString_javascriptDoubleQuote]
    | list vs =>
      dsimp only [firstToken]
      cases vs with
      | nil =>
        rw [parseToken_list_nil]
        exact ⟨fun _ => rfl, fun hno => absurd (List.forall_mem_nil _) hno⟩
      | cons w vs =>
        have hlong := length_buildRest p depth vs (listEnd p rest)
        have hpos' := length_buildJSONString_pos p depth w
        have hreads : ∀ u ∈ w :: vs, Reads (buildValue levels false) (u.Within levels) (buildJSONString p depth u) u := by
          intro u hu
          exact ih depth false (hv.of_mem_list hu) fun h => absurd h (by decide)
        rw [parseToken_list_cons]
        obtain ⟨hall, hsome⟩ := buildList_write hreads
          (n := (buildJSONString p depth w ++ (buildRest p depth vs ++ listEnd p rest)).length + 1)
          (by simp only [List.length_append] at hlong ⊢; omega) (firstToken_ne w).1 []
          (r := { r with jsonPos := buildJSONString p depth w ++ (buildRest p depth vs ++ listEnd p rest) }) rfl
        constructor
        · intro hwithin
          dsimp only
          rw [hall hwithin]
          rfl
        · intro hwithin
          obtain ⟨r', hr'⟩ := hsome hwithin
          dsimp only
          rw [hr']
          exact ⟨r', rfl⟩
    | dictionary es =>
      dsimp only [firstToken]
      cases es with
      | nil =>
        rw [parseToken_dictionary_nil]
        exact ⟨fun _ => rfl, fun hno => absurd (List.forall_mem_nil _) hno⟩
      | cons e es =>
        have hlong := length_buildEntries p depth es (dictionaryEnd p depth rest)
        have hpos' := length_buildJSONString_pos p (depth + 1) e.2
        have hreads : ∀ u ∈ e :: es,
            Reads (buildValue levels false) (u.2.Within levels) (buildJSONString p (depth + 1) u.2) u.2 := by
          intro u hu
          exact ih (depth + 1) false (hv.of_mem_dictionary hu).2 fun h => absurd h (by decide)
        rw [parseToken_dictionary_cons]
        obtain ⟨hall, hsome⟩ := buildDictionary_write hreads
          (n := (javascriptDoubleQuote e.1 ++ (entryTail p depth e.2 ++ (buildEntries p depth es ++ dictionaryEnd p depth rest))).length + 1)
          (by simp only [entryTail, List.length_append] at hlong ⊢; omega) [] hv.sorted (fun u hu => (hv.of_mem_dictionary hu).1)
          (r := { r with jsonPos := javascriptDoubleQuote e.1 ++
            (entryTail p depth e.2 ++ (buildEntries p depth es ++ dictionaryEnd p depth rest)) }) rfl
        constructor
        · intro hwithin
          dsimp only
          rw [hall hwithin]
          rfl
        · intro hwithin
          obtain ⟨r', hr'⟩ := hsome hwithin
          dsimp only
          rw [hr']
          exact ⟨r', rfl⟩

/-! ## Encoding -/

/-- What a text is to the check in front of the reader: no zero ends it, and it is UTF-8, as far as it goes, under a condition. -/
structure Encoded (ok : Prop) (s : Bytes) : Prop where
  ne_zero : ∀ c ∈ s, c ≠ 0
  isStringUTF8_append : ∀ t, isStringUTF8 (s ++ t) = true ↔ ok ∧ isStringUTF8 t = true

theorem Encoded.append {ok ok' : Prop} {s t : Bytes} (hs : Encoded ok s) (ht : Encoded ok' t) : Encoded (ok ∧ ok') (s ++ t) where
  ne_zero c hc := (List.mem_append.mp hc).elim (hs.ne_zero c) (ht.ne_zero c)
  isStringUTF8_append u := by rw [List.append_assoc, hs.isStringUTF8_append, ht.isStringUTF8_append, and_assoc]

theorem Encoded.congr {ok ok' : Prop} {s : Bytes} (hs : Encoded ok s) (h : ok ↔ ok') : Encoded ok' s where
  ne_zero := hs.ne_zero
  isStringUTF8_append t := by rw [hs.isStringUTF8_append, h]

theorem encoded_of_ascii {s : Bytes} (h : ∀ c ∈ s, c ≠ 0 ∧ c < 0x80) : Encoded True s where
  ne_zero c hc := (h c hc).1
  isStringUTF8_append t := by rw [isStringUTF8_append (isStringUTF8_of_ascii fun c hc => (h c hc).2), true_and]

/-- Characters without a condition may stand behind a text. -/
theorem Encoded.append_ascii {ok : Prop} {s t : Bytes} (hs : Encoded ok s) (h : ∀ c ∈ t, c ≠ 0 ∧ c < 0x80) : Encoded ok (s ++ t) :=
  (hs.append (encoded_of_ascii h)).congr (by rw [and_true])

/-- Characters without a condition may stand in front of a text. -/
theorem Encoded.ascii_append {ok : Prop} {s t : Bytes} (h : ∀ c ∈ s, c ≠ 0 ∧ c < 0x80) (ht : Encoded ok t) : Encoded ok (s ++ t) :=
  ((encoded_of_ascii h).append ht).congr (by rw [true_and])

theorem ascii_of_mem_ifPretty (p : Bool) {s : Bytes} (h : ∀ c ∈ s, c ≠ 0 ∧ c < 0x80) : ∀ c ∈ ifPretty p s, c ≠ 0 ∧ c < 0x80 := by
  intro c hc
  cases p with
  | false => cases hc
  | true => exact h c hc

theorem ascii_of_isBlank {c : UInt8} (h : isBlank c = true) : c ≠ 0 ∧ c < 0x80 :=
  forall_byte (p := fun c => isBlank c = true → c ≠ 0 ∧ c < 0x80) (by decide +kernel) c h

theorem ascii_of_mem_intToString (n : Int) : ∀ c ∈ intToString n, c ≠ 0 ∧ c < 0x80 := by
  have hdigits : ∀ c ∈ Decimal.encode n.natAbs, c ≠ 0 ∧ c < 0x80 := fun c hc =>
    forall_byte (p := fun c => Decimal.isDigit c = true → c ≠ 0 ∧ c < 0x80) (by decide +kernel) c (Decimal.isDigit_of_mem_encode hc)
  intro c hc
  unfold intToString Decimal.encodeInt at hc
  split at hc
  · rcases List.mem_cons.mp hc with rfl | hc
    · decide
    · exact hdigits c hc
  · exact hdigits c hc

/-- How a character is written: with ASCII characters if it is one, and as it is if not. -/
theorem quoteChar_ascii (c : UInt8) :
    (c < 0x80 → quoteChar c ≠ [] ∧ ∀ d ∈ quoteChar c, d ≠ 0 ∧ d < 0x80) ∧ (¬c < 0x80 → quoteChar c = [c] ∧ c ≠ 0) :=
  forall_byte (p := fun c => (c < 0x80 → quoteChar c ≠ [] ∧ ∀ d ∈ quoteChar c, d ≠ 0 ∧ d < 0x80) ∧
    (¬c < 0x80 → quoteChar c = [c] ∧ c ≠ 0)) (by decide +kernel) c

/-- The machine that checks the encoding sees no difference between a string and how it is written. -/
theorem run_quoteChars (st : Utf8State) (str : Bytes) : st.run (str.flatMap quoteChar) = st.run str := by
  induction str generalizing st with
  | nil => rfl
  | cons c str ih =>
    have hchar : st.run (quoteChar c) = st.step c := by
      by_cases hc : c < 0x80
      · obtain ⟨hne, hall⟩ := (quoteChar_ascii c).1 hc
        rw [Utf8State.run_of_ascii st hne fun d hd => (hall d hd).2, Utf8State.step_of_ascii st hc]
      · rw [((quoteChar_ascii c).2 hc).1]
        show (st.step c).bind some = st.step c
        exact Option.bind_fun_some _
    rw [List.flatMap_cons, Utf8State.run_append, hchar]
    show ((st.step c).bind fun st => st.run (str.flatMap quoteChar)) = (st.step c).bind fun st => st.run str
    congr 1
    funext st
    exact ih st

theorem encoded_javascriptDoubleQuote (str : Bytes) : Encoded (isStringUTF8 str = true) (javascriptDoubleQuote str) where
  ne_zero c hc := by
    rw [javascriptDoubleQuote, List.mem_append, List.mem_cons, List.mem_singleton, List.mem_flatMap] at hc
    rcases hc with (rfl | ⟨d, -, hc⟩) | rfl
    · decide
    · by_cases hd : d < 0x80
      · exact (((quoteChar_ascii d).1 hd).2 c hc).1
      · obtain ⟨heq, hne⟩ := (quoteChar_ascii d).2 hd
        rw [heq, List.mem_singleton] at hc
        rwa [hc]
    · decide
  isStringUTF8_append t := by
    have hquote : javascriptDoubleQuote str ++ t = [ascii '"'] ++ (str.flatMap quoteChar ++ (ascii '"' :: t)) := by
      rw [javascriptDoubleQuote]
      simp only [List.cons_append, List.append_assoc, List.nil_append]
    have hstep : ∀ st : Utf8State, st.run (ascii '"' :: t) = if st.positionsLeft = 0 then st.run t else none := by
      intro st
      show ((st.step (ascii '"')).bind fun st => st.run t) = _
      rw [Utf8State.step_of_ascii st (by decide)]
      split
      · rw [Option.bind_some]
      · rw [Option.bind_none]
    rw [hquote, isStringUTF8_append (isStringUTF8_of_ascii (by decide)), isStringUTF8_iff, isStringUTF8_iff, isStringUTF8_iff,
      Utf8State.run_append, run_quoteChars]
    cases hrun : Utf8State.run {} str with
    | none => simp
    | some st =>
      have hbetween : Utf8State.Between st := Utf8State.Between.run (fun _ => rfl) hrun
      rw [Option.bind_some, hstep, Option.some_inj]
      by_cases hleft : st.positionsLeft = 0
      · obtain rfl := hbetween hleft
        rw [if_pos rfl, eq_self_iff_true, true_and]
      · rw [if_neg hleft]
        constructor
        · intro h
          cases h
        · rintro ⟨rfl, -⟩
          exact absurd rfl hleft

theorem ascii_of_mem_space (p : Bool) : ∀ c ∈ ifPretty p (asciiString " "), c ≠ 0 ∧ c < 0x80 := ascii_of_mem_ifPretty p (by decide)

theorem ascii_of_mem_indentLine (depth : Nat) : ∀ c ∈ indentLine depth, c ≠ 0 ∧ c < 0x80 :=
  fun c hc => ascii_of_isBlank (isBlank_of_mem_indentLine depth c hc)

theorem ascii_of_mem_lineEnding : ∀ c ∈ kPrettyPrintLineEnding, c ≠ 0 ∧ c < 0x80 := by decide

theorem encoded_buildRest (p : Bool) (depth : Nat) {ok : Value → Prop} {vs : List Value}
    (h : ∀ v ∈ vs, Encoded (ok v) (buildJSONString p depth v)) : Encoded (∀ v ∈ vs, ok v) (buildRest p depth vs) := by
  induction vs with
  | nil =>
    rw [buildRest]
    exact (encoded_of_ascii (List.forall_mem_nil _)).congr ⟨fun _ => List.forall_mem_nil _, fun _ => trivial⟩
  | cons v vs ih =>
    obtain ⟨hv, hvs⟩ := List.forall_mem_cons.mp h
    rw [buildRest, List.append_assoc, List.append_assoc]
    refine Encoded.ascii_append (by decide) (Encoded.ascii_append (ascii_of_mem_space p) ?_)
    exact (hv.append (ih hvs)).congr List.forall_mem_cons.symm

theorem encoded_buildEntry (p : Bool) (depth : Nat) {ok : Prop} {e : Bytes × Value}
    (h : Encoded ok (buildJSONString p (depth + 1) e.2)) : Encoded (isStringUTF8 e.1 = true ∧ ok) (buildEntry p depth e) := by
  rw [buildEntry, List.append_assoc, List.append_assoc]
  refine Encoded.ascii_append (ascii_of_mem_ifPretty p (ascii_of_mem_indentLine (depth + 1))) ?_
  refine (encoded_javascriptDoubleQuote e.1).append (Encoded.ascii_append ?_ h)
  cases p <;> decide

theorem encoded_buildEntries (p : Bool) (depth : Nat) {ok : Bytes × Value → Prop} {es : Entries}
    (h : ∀ e ∈ es, Encoded (ok e) (buildEntry p depth e)) : Encoded (∀ e ∈ es, ok e) (buildEntries p depth es) := by
  induction es with
  | nil =>
    rw [buildEntries]
    exact (encoded_of_ascii (List.forall_mem_nil _)).congr ⟨fun _ => List.forall_mem_nil _, fun _ => trivial⟩
  | cons e es ih =>
    obtain ⟨he, hes⟩ := List.forall_mem_cons.mp h
    rw [buildEntries, List.append_assoc, List.append_assoc]
    refine Encoded.ascii_append (by decide) (Encoded.ascii_append (ascii_of_mem_ifPretty p ascii_of_mem_lineEnding) ?_)
    exact (he.append (ih hes)).congr List.forall_mem_cons.symm

/-- The text of a value is UTF-8 when its strings and keys are. -/
theorem encoded_buildJSONString (p : Bool) (depth : Nat) (v : Value) : Encoded v.Utf8 (buildJSONString p depth v) := by
  induction v generalizing depth with
  | null =>
    rw [buildJSONString]
    exact (encoded_of_ascii (by decide)).congr ⟨fun _ => .null, fun _ => trivial⟩
  | boolean b =>
    rw [buildJSONString]
    exact (encoded_of_ascii (by cases b <;> decide)).congr ⟨fun _ => .boolean b, fun _ => trivial⟩
  | integer n =>
    rw [buildJSONString]
    exact (encoded_of_ascii (ascii_of_mem_intToString n)).congr ⟨fun _ => .integer n, fun _ => trivial⟩
  | string s =>
    rw [buildJSONString]
    exact (encoded_javascriptDoubleQuote s).congr Value.utf8_string.symm
  | list vs ih =>
    rw [buildJSONString]
    refine Encoded.append_ascii (Encoded.append_ascii ?_ (ascii_of_mem_space p)) (by decide)
    rw [List.append_assoc]
    refine (Encoded.ascii_append (by decide) (Encoded.ascii_append (ascii_of_mem_space p) ?_)).congr Value.utf8_list.symm
    cases vs with
    | nil =>
      rw [JSONWriter.buildList]
      exact (encoded_of_ascii (List.forall_mem_nil _)).congr ⟨fun _ => List.forall_mem_nil _, fun _ => trivial⟩
    | cons v vs =>
      rw [JSONWriter.buildList]
      refine Encoded.congr ?_ List.forall_mem_cons.symm
      exact (ih v List.mem_cons_self depth).append (encoded_buildRest p depth fun w hw => ih w (List.mem_cons_of_mem v hw) depth)
  | dictionary es ih =>
    have hentry : ∀ e ∈ es, Encoded (isStringUTF8 e.1 = true ∧ e.2.Utf8) (buildEntry p depth e) := by
      intro e he
      exact encoded_buildEntry p depth (ih e he (depth + 1))
    rw [buildJSONString]
    refine Encoded.append_ascii (Encoded.append_ascii ?_ ?_) (by decide)
    · rw [List.append_assoc]
      refine (Encoded.ascii_append (by decide) (Encoded.ascii_append (ascii_of_mem_ifPretty p ascii_of_mem_lineEnding) ?_)).congr
        Value.utf8_dictionary.symm
      cases es with
      | nil =>
        rw [JSONWriter.buildDictionary]
        exact (encoded_of_ascii (List.forall_mem_nil _)).congr ⟨fun _ => List.forall_mem_nil _, fun _ => trivial⟩
      | cons e es =>
        rw [JSONWriter.buildDictionary]
        refine Encoded.congr ?_ List.forall_mem_cons.symm
        exact (hentry e List.mem_cons_self).append (encoded_buildEntries p depth fun u hu => hentry u (List.mem_cons_of_mem e hu))
    · refine ascii_of_mem_ifPretty p ?_
      intro c hc
      exact ascii_of_isBlank (isBlank_of_mem_append isBlank_of_mem_lineEnding (isBlank_of_mem_indentLine depth) c hc)

/-! ## The whole text -/

theorem encoded_write (v : Value) (p : Bool) : Encoded v.Utf8 (JSONWriter.write v p) :=
  (encoded_buildJSONString p 0 v).append_ascii (ascii_of_mem_ifPretty p ascii_of_mem_lineEnding)

theorem cStr_of_ne_zero {s : Bytes} (h : ∀ c ∈ s, c ≠ 0) : cStr s = s :=
  List.takeWhile_eq_self_iff.mpr fun c hc => decide_eq_true (h c hc)

/-- A list or a dictionary is read from its text, compact or pretty, or refused. -/
theorem written_reads {v : Value} (hv : v.Proper) (hroot : v.isRoot = true) (p allowTrailingComma : Bool) :
    (v.Within kStackLimit ∧ v.Utf8 → readAndReturnError (JSONWriter.write v p) allowTrailingComma = .ok v) ∧
      (¬(v.Within kStackLimit ∧ v.Utf8) →
        ∃ message, readAndReturnError (JSONWriter.write v p) allowTrailingComma = .error message) := by
  have hencoded := encoded_write v p
  have hutf8 : isStringUTF8 (JSONWriter.write v p) = true ↔ v.Utf8 := by
    have happend := hencoded.isStringUTF8_append []
    rw [List.append_nil] at happend
    exact happend.trans (and_iff_left rfl)
  unfold readAndReturnError jsonToValue
  rw [cStr_of_ne_zero hencoded.ne_zero]
  by_cases hok : v.Utf8
  · rw [hutf8.mpr hok, if_neg (by decide)]
    have hend : NumberEnds (ifPretty p kPrettyPrintLineEnding) := by
      have hblank := numberEnds_blanks_append (isBlank_of_mem_ifPretty p isBlank_of_mem_lineEnding) numberEnds_nil
      rwa [List.append_nil] at hblank
    obtain ⟨hread, hrefused⟩ := reads_buildJSONString p kStackLimit 0 true hv (fun _ => hroot)
      (r := ⟨JSONWriter.write v p, JSONWriter.write v p, allowTrailingComma, ""⟩) rfl hend
    dsimp only
    constructor
    · rintro ⟨hwithin, -⟩
      rw [hread hwithin]
      cases p <;> rfl
    · intro hno
      obtain ⟨r', hr'⟩ := hrefused fun hwithin => hno ⟨hwithin, hok⟩
      rw [hr']
      exact ⟨_, rfl⟩
  · have hfalse : isStringUTF8 (JSONWriter.write v p) = false := Bool.eq_false_iff.mpr fun h => hok (hutf8.mp h)
    rw [hfalse, if_pos (by decide)]
    exact ⟨fun h => absurd h.2 hok, fun _ => ⟨_, rfl⟩⟩

/-- The text of a list or a dictionary that the library made, compact or pretty, is read as that value and as no other: exactly when it has
at most as many levels as the reader admits, and all its strings and keys are UTF-8. -/
theorem readAndReturnError_write {v : Value} (hv : v.Proper) (hroot : v.isRoot = true) (p allowTrailingComma : Bool) (w : Value) :
    readAndReturnError (JSONWriter.write v p) allowTrailingComma = .ok w ↔ w = v ∧ v.Within kStackLimit ∧ v.Utf8 := by
  obtain ⟨hread, hrefused⟩ := written_reads hv hroot p allowTrailingComma
  constructor
  · intro h
    by_cases hok : v.Within kStackLimit ∧ v.Utf8
    · rw [hread hok] at h
      exact ⟨(Except.ok.inj h).symm, hok⟩
    · obtain ⟨message, hmessage⟩ := hrefused hok
      rw [hmessage] at h
      cases h
  · rintro ⟨rfl, hok⟩
    exact hread hok

theorem readAndReturnError_write_small : readAndReturnError (JSONWriter.write (.list [.dictionary [], .integer (-5)]) true) false =
    .ok (.list [.dictionary [], .integer (-5)]) := by
  have hproper : Value.Proper (.list [.dictionary [], .integer (-5)]) :=
    .list (List.forall_mem_cons.mpr ⟨.dictionary .nil nofun nofun, List.forall_mem_cons.mpr ⟨.integer (by decide), nofun⟩⟩)
  refine (readAndReturnError_write hproper rfl true false _).mpr ⟨rfl, ?_, ?_⟩
  · exact List.forall_mem_cons.mpr ⟨nofun, List.forall_mem_cons.mpr ⟨trivial, nofun⟩⟩
  · exact .list (List.forall_mem_cons.mpr ⟨.dictionary nofun nofun, List.forall_mem_cons.mpr ⟨.integer _, nofun⟩⟩)

end JSONReader

end Cpp
