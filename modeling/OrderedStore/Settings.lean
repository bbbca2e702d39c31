import OrderedStore.SortedMap

/-!
# Settings

* `Document` : data as it is exchanged between programs: nothing, truth values, numbers, texts,
  lists, and objects with named fields;
* `Settings` : named options, as a host gives them to any store it constructs. Names are sorted by
  their UTF-8 bytes, and each has one value;
* `Settings.withOption`, `Settings.ofMap` : the ways to build settings;
* `Settings.toDocument`, `Settings.ofDocument?` : settings as plain data. They are written as an
  object with the one field `options`. They are read from such an object, where the field may be
  missing and others are passed over, or from the fields in a row.
-/

namespace OrderedStore

/-! ## Plain data -/

inductive Document where
  | null
  | bool (value : Bool)
  /-- The decimal number `mantissa · 10 ^ (-places)`. -/
  | number (mantissa : Int) (places : Nat)
  | text (value : String)
  | list (items : List Document)
  | object (fields : List (String × Document))

namespace Document

instance : Inhabited Document := ⟨null⟩

def text? : Document → Option String
  | text value => some value
  | _ => none

end Document

/-! ## Settings -/

structure Settings where
  options : SortedMap String String

namespace Settings

theorem options_inj {a b : Settings} : a.options = b.options ↔ a = b := by
  cases a; cases b; simp

instance : DecidableEq Settings := fun _ _ => decidable_of_iff _ options_inj

def empty : Settings := ⟨.empty⟩

instance : Inhabited Settings := ⟨empty⟩

def ofMap (options : SortedMap String String) : Settings := ⟨options⟩

/-- Sets one option, in place of the value it had. -/
def withOption (settings : Settings) (name value : String) : Settings :=
  ⟨settings.options.insert name value⟩

def option? (settings : Settings) (name : String) : Option String := settings.options.get? name

def isEmpty (settings : Settings) : Bool := settings.options.isEmpty

/-! ## Settings as plain data -/

def optionsField : String := "options"

def toDocument (settings : Settings) : Document :=
  .object [(optionsField, .object (settings.options.toList.map fun e => (e.1, .text e.2)))]

def ofOptions? : Document → Option Settings
  | .object fields => do
    let entries ← fields.mapM fun e => e.2.text?.map fun value => (e.1, value)
    return ⟨.ofList entries⟩
  | _ => none

/-- Reads settings from an object, or from their fields in a row. A missing field sets nothing. -/
def ofDocument? : Document → Option Settings
  | .object fields => match fields.filter fun e => e.1 == optionsField with
    | [] => some empty
    | [(_, options)] => ofOptions? options
    | _ => none
  | .list [] => some empty
  | .list [options] => ofOptions? options
  | _ => none

end Settings
end OrderedStore
