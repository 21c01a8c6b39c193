import Pearl.Text.Quoted
import Pearl.Text.ShortestDecimal

namespace Pearl

/-- Data as clients send it: the values of a settings object. Objects keep the order of their
fields. -/
inductive Value where
  | null
  | bool (b : Bool)
  | int (n : Int)
  | float (x : Float)
  | string (s : String)
  | list (items : List Value)
  | object (fields : List (String × Value))

namespace Value

def typeName : Value → String
  | null => "NoneType"
  | bool _ => "bool"
  | int _ => "int"
  | float _ => "float"
  | string _ => "str"
  | list _ => "list"
  | object _ => "dict"

/-- Values that count as absent: null, false, zero and whatever is empty. -/
def isEmpty : Value → Bool
  | null => true
  | bool b => !b
  | int n => n = 0
  | float x => x == 0
  | string s => s = ""
  | list items => items.isEmpty
  | object fields => fields.isEmpty

mutual

/-- A value with its strings in quotes. -/
def quoted : Value → String
  | null => "None"
  | bool b => if b then "True" else "False"
  | int n => toString n
  | float x => Text.showFloat x
  | string s => Text.quoteString s
  | list items => "[" ++ ", ".intercalate (quotedItems items) ++ "]"
  | object fields => "\x7b" ++ ", ".intercalate (quotedFields fields) ++ "\x7d"

def quotedItems : List Value → List String
  | [] => []
  | v :: vs => v.quoted :: quotedItems vs

def quotedFields : List (String × Value) → List String
  | [] => []
  | (name, v) :: fields => (Text.quoteString name ++ ": " ++ v.quoted) :: quotedFields fields

end

/-- A value as text: a string is its own. -/
def text : Value → String
  | string s => s
  | v => v.quoted

def field? (name : String) : List (String × Value) → Option Value := List.lookup name

end Value

end Pearl
