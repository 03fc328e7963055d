import ProtoScribe.Decimal.Written
import ProtoScribe.Text.Quoted
import ProtoScribe.Value

/-!
# The text of a value

`Value.display` shows a value so that text can be told from other data: text is quoted, lists stand
in brackets, dictionaries in braces. `Value.plain` is the same except that a text stands for itself.
-/

namespace ProtoScribe.Value

mutual

def display : Value → String
  | .none => "None"
  | .bool b => if b then "True" else "False"
  | .int n => toString n
  | .float x => Decimal.write x
  | .str s => Text.quoted s
  | .bytes b => Text.quotedBytes b
  | .list items => "[" ++ ", ".intercalate (displayItems items) ++ "]"
  | .dict entries => "\x7b" ++ ", ".intercalate (displayEntries entries) ++ "\x7d"

def displayItems : List Value → List String
  | [] => []
  | v :: rest => display v :: displayItems rest

/-- The entries of a dictionary, key and value divided by a colon. -/
def displayEntries : List (Value × Value) → List String
  | [] => []
  | (k, v) :: rest => (display k ++ ": " ++ display v) :: displayEntries rest

end

def plain : Value → String
  | .str s => s
  | v => v.display

/-- What kind of value it is, as named in messages. -/
def kindName : Value → String
  | .none => "NoneType"
  | .bool _ => "bool"
  | .int _ => "int"
  | .float _ => "float"
  | .str _ => "str"
  | .bytes _ => "bytes"
  | .list _ => "list"
  | .dict _ => "dict"

end ProtoScribe.Value
