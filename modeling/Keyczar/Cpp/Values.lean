import Keyczar.Cpp.StringUtil
import Keyczar.Lib.OrderedMap
import Keyczar.Lib.Segments
import Mathlib.Data.List.Lex

/-!
# `values.cc`

Values as trees. A dictionary is its map, in the order of its keys; a path names an entry of a dictionary within a dictionary by the
keys between its dots, so that no key has a dot in it. Real and binary values, which neither the reader nor the writer knows, are left out.
-/

namespace Cpp

/-- `Value`. -/
inductive Value where
  | null
  | boolean (value : Bool)
  | integer (value : Int)
  | string (value : Bytes)
  | list (values : List Value)
  | dictionary (entries : List (Bytes × Value))

/-- A `DictionaryValue`. -/
abbrev Entries : Type := List (Bytes × Value)

namespace Value

/-- Induction over a value: a list or a dictionary has the property when all in it have. -/
@[elab_as_elim, induction_eliminator]
theorem induct {motive : Value → Prop} (null : motive null) (boolean : ∀ b, motive (boolean b)) (integer : ∀ n, motive (integer n))
    (string : ∀ s, motive (string s)) (list : ∀ vs, (∀ v ∈ vs, motive v) → motive (list vs))
    (dictionary : ∀ es : Entries, (∀ e ∈ es, motive e.2) → motive (dictionary es)) : ∀ v, motive v
  | .null => null
  | .boolean b => boolean b
  | .integer n => integer n
  | .string s => string s
  | .list vs => list vs fun v _ => induct null boolean integer string list dictionary v
  | .dictionary es => dictionary es fun e _ => induct null boolean integer string list dictionary e.2
termination_by v => sizeOf v
decreasing_by
  · rename_i hv
    have hlt := List.sizeOf_lt_of_mem hv
    simp only [Value.list.sizeOf_spec]
    omega
  · rename_i he
    have hlt := List.sizeOf_lt_of_mem he
    have hsnd : sizeOf e.2 < sizeOf e := by
      obtain ⟨key, v⟩ := e
      simp only [Prod.mk.sizeOf_spec]
      omega
    simp only [Value.dictionary.sizeOf_spec]
    omega

end Value

/-! ## `DictionaryValue` -/

namespace Entries

/-- The order of `char`s, as `std::string` compares them. -/
scoped instance : LinearOrder UInt8 := LinearOrder.lift' UInt8.toNat fun _ _ h => UInt8.toNat_inj.mp h

/-- `SetInCurrentNode`. -/
def setInCurrentNode (d : Entries) (key : Bytes) (inValue : Value) : Entries := OrderedMap.insertEntry key inValue d

/-- The keys of a path. -/
def pathKeys (path : Bytes) : List Bytes := path.splitOn 46

/-- `Set` of the path with some keys: a dictionary is made where there is none. -/
def setKeys (inValue : Value) : List Bytes → Entries → Entries
  | [], d => d
  | [key], d => d.setInCurrentNode key inValue
  | key :: keys, d =>
    let entry : Entries :=
      match OrderedMap.findEntry key d with
      | some (.dictionary entry) => entry
      | _ => []
    d.setInCurrentNode key (.dictionary (setKeys inValue keys entry))

/-- `Set`. -/
def set (d : Entries) (path : Bytes) (inValue : Value) : Entries := setKeys inValue (pathKeys path) d

/-- `Get` of the path with some keys. -/
def getKeys : List Bytes → Entries → Option Value
  | [], _ => none
  | [key], d => OrderedMap.findEntry key d
  | key :: keys, d =>
    match OrderedMap.findEntry key d with
    | some (.dictionary entry) => getKeys keys entry
    | _ => none

/-- `Get`. -/
def get (d : Entries) (path : Bytes) : Option Value := getKeys (pathKeys path) d

/-- `HasKey`. -/
def hasKey (d : Entries) (key : Bytes) : Bool := (OrderedMap.findEntry key d).isSome

/-- `GetBoolean`. -/
def getBoolean (d : Entries) (path : Bytes) : Option Bool :=
  match d.get path with
  | some (.boolean b) => some b
  | _ => none

/-- `GetInteger`. -/
def getInteger (d : Entries) (path : Bytes) : Option Int :=
  match d.get path with
  | some (.integer n) => some n
  | _ => none

/-- `GetString`. -/
def getString (d : Entries) (path : Bytes) : Option Bytes :=
  match d.get path with
  | some (.string s) => some s
  | _ => none

/-- `GetDictionary`. -/
def getDictionary (d : Entries) (path : Bytes) : Option Entries :=
  match d.get path with
  | some (.dictionary entries) => some entries
  | _ => none

/-- `GetList`. -/
def getList (d : Entries) (path : Bytes) : Option (List Value) :=
  match d.get path with
  | some (.list values) => some values
  | _ => none

/-- A key without a dot is a path of its own. -/
theorem pathKeys_of_not_mem {key : Bytes} (h : 46 ∉ key) : pathKeys key = [key] := by
  exact List.splitOn_eq_singleton h

theorem set_of_not_mem {key : Bytes} (h : 46 ∉ key) (d : Entries) (v : Value) : d.set key v = d.setInCurrentNode key v := by
  rw [set, pathKeys_of_not_mem h]
  rfl

theorem get_of_not_mem {key : Bytes} (h : 46 ∉ key) (d : Entries) : d.get key = OrderedMap.findEntry key d := by
  rw [get, pathKeys_of_not_mem h]
  rfl

theorem get_nil {key : Bytes} (h : 46 ∉ key) : Entries.get [] key = none := get_of_not_mem h []

/-- What is set is found again. -/
theorem get_set_self {key : Bytes} (h : 46 ∉ key) (d : Entries) (v : Value) : (d.set key v).get key = some v := by
  rw [set_of_not_mem h, get_of_not_mem h, setInCurrentNode, OrderedMap.findEntry_insertEntry, if_pos rfl]

/-- What is set is seen at its key only. -/
theorem get_set_of_ne {key key' : Bytes} (h : 46 ∉ key) (h' : 46 ∉ key') (hne : key' ≠ key) (d : Entries) (v : Value) :
    (d.set key v).get key' = d.get key' := by
  rw [set_of_not_mem h, get_of_not_mem h', get_of_not_mem h', setInCurrentNode, OrderedMap.findEntry_insertEntry, if_neg hne]

/-- What holds of the entries and of what is set holds of all. -/
theorem forall_mem_set {p : Bytes × Value → Prop} {d : Entries} {key : Bytes} {v : Value} (h : 46 ∉ key) (hd : ∀ e ∈ d, p e)
    (hv : p (key, v)) : ∀ e ∈ d.set key v, p e := by
  intro e he
  rw [set_of_not_mem h] at he
  rcases OrderedMap.mem_insertEntry he with rfl | he
  · exact hv
  · exact hd e he

theorem hasKey_eq {key : Bytes} (h : 46 ∉ key) (d : Entries) : d.hasKey key = (d.get key).isSome := by
  rw [hasKey, get_of_not_mem h]

/-- The keys of a path have no dots. -/
theorem not_mem_of_mem_pathKeys {path key : Bytes} (h : key ∈ pathKeys path) : 46 ∉ key := Segments.not_mem_of_mem_splitOn h

end Entries

/-! ## Values that can be made -/

namespace Value

open Entries

/-- What holds of every value that the library makes: numbers are `int`s, and a dictionary has its keys in order, each once and without
dots. -/
inductive Proper : Value → Prop
  | null : Proper .null
  | boolean (b : Bool) : Proper (.boolean b)
  | integer {n : Int} : InIntRange n → Proper (.integer n)
  | string (s : Bytes) : Proper (.string s)
  | list {values : List Value} : (∀ v ∈ values, Proper v) → Proper (.list values)
  | dictionary {entries : Entries} : (entries.Pairwise fun e e' => e.1 < e'.1) → (∀ e ∈ entries, 46 ∉ e.1) →
    (∀ e ∈ entries, Proper e.2) → Proper (.dictionary entries)

/-- A value with at most so many levels of lists and dictionaries, itself counted. -/
def Within : Nat → Value → Prop
  | 0, _ => False
  | levels + 1, .list values => ∀ v ∈ values, Within levels v
  | levels + 1, .dictionary entries => ∀ e ∈ entries, Within levels e.2
  | _ + 1, _ => True

/-- All strings and keys of the value are UTF-8. -/
inductive Utf8 : Value → Prop
  | null : Utf8 .null
  | boolean (b : Bool) : Utf8 (.boolean b)
  | integer (n : Int) : Utf8 (.integer n)
  | string {s : Bytes} : isStringUTF8 s = true → Utf8 (.string s)
  | list {values : List Value} : (∀ v ∈ values, Utf8 v) → Utf8 (.list values)
  | dictionary {entries : Entries} : (∀ e ∈ entries, isStringUTF8 e.1 = true) → (∀ e ∈ entries, Utf8 e.2) → Utf8 (.dictionary entries)

/-- Is it a list or a dictionary? -/
def isRoot : Value → Bool
  | .list _ => true
  | .dictionary _ => true
  | _ => false

theorem utf8_string {s : Bytes} : Utf8 (.string s) ↔ isStringUTF8 s = true := by
  constructor
  · intro h
    cases h with
    | string hs => exact hs
  · exact Utf8.string

theorem utf8_list {values : List Value} : Utf8 (.list values) ↔ ∀ v ∈ values, Utf8 v := by
  constructor
  · intro h
    cases h with
    | list hvalues => exact hvalues
  · exact Utf8.list

theorem utf8_dictionary {entries : Entries} : Utf8 (.dictionary entries) ↔ ∀ e ∈ entries, isStringUTF8 e.1 = true ∧ Utf8 e.2 := by
  constructor
  · intro h
    cases h with
    | dictionary hkeys hvalues => exact fun e he => ⟨hkeys e he, hvalues e he⟩
  · intro h
    exact Utf8.dictionary (fun e he => (h e he).1) fun e he => (h e he).2

theorem Proper.of_mem_list {values : List Value} (h : Proper (.list values)) {v : Value} (hv : v ∈ values) : Proper v := by
  cases h with
  | list hvalues => exact hvalues v hv

theorem Proper.of_mem_dictionary {entries : Entries} (h : Proper (.dictionary entries)) {e : Bytes × Value} (he : e ∈ entries) :
    46 ∉ e.1 ∧ Proper e.2 := by
  cases h with
  | dictionary _ hdots hvalues => exact ⟨hdots e he, hvalues e he⟩

theorem Proper.sorted {entries : Entries} (h : Proper (.dictionary entries)) : entries.Pairwise fun e e' => e.1 < e'.1 := by
  cases h with
  | dictionary hsorted _ _ => exact hsorted

/-- A dictionary as the map it is. -/
def Proper.map {entries : Entries} (h : Proper (.dictionary entries)) : OrderedMap Bytes Value := ⟨entries, h.sorted⟩

theorem proper_empty : Proper (.dictionary []) :=
  .dictionary List.Pairwise.nil (fun _ he => absurd he List.not_mem_nil) fun _ he => absurd he List.not_mem_nil

theorem Proper.setInCurrentNode {entries : Entries} (h : Proper (.dictionary entries)) {key : Bytes} (hkey : 46 ∉ key) {v : Value}
    (hv : Proper v) : Proper (.dictionary (entries.setInCurrentNode key v)) := by
  refine .dictionary (OrderedMap.sorted_insertEntry h.sorted) ?_ ?_
  · intro e he
    rcases OrderedMap.mem_insertEntry he with rfl | he
    · exact hkey
    · exact (h.of_mem_dictionary he).1
  · intro e he
    rcases OrderedMap.mem_insertEntry he with rfl | he
    · exact hv
    · exact (h.of_mem_dictionary he).2

theorem Proper.of_findEntry {entries : Entries} (h : Proper (.dictionary entries)) {key : Bytes} {v : Value}
    (hv : OrderedMap.findEntry key entries = some v) : Proper v :=
  (h.of_mem_dictionary (h.map.mem_entries_iff.mpr hv)).2

/-- What `Set` makes of a dictionary is one again. -/
theorem Proper.setKeys {v : Value} (hv : Proper v) {keys : List Bytes} (hkeys : ∀ key ∈ keys, 46 ∉ key) {entries : Entries}
    (h : Proper (.dictionary entries)) : Proper (.dictionary (Entries.setKeys v keys entries)) := by
  induction keys generalizing entries with
  | nil => exact h
  | cons key keys ih =>
    have hkey : 46 ∉ key := hkeys key List.mem_cons_self
    cases keys with
    | nil => exact h.setInCurrentNode hkey hv
    | cons key' keys =>
      refine h.setInCurrentNode hkey (ih (fun k hk => hkeys k (List.mem_cons_of_mem key hk)) ?_)
      cases hfound : OrderedMap.findEntry key entries with
      | none => exact proper_empty
      | some found =>
        cases found with
        | dictionary entry => exact h.of_findEntry hfound
        | _ => exact proper_empty

theorem Proper.set {entries : Entries} (h : Proper (.dictionary entries)) (path : Bytes) {v : Value} (hv : Proper v) :
    Proper (.dictionary (entries.set path v)) :=
  hv.setKeys (fun _ hkey => not_mem_of_mem_pathKeys hkey) h

end Value

end Cpp
