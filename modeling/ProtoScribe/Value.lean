import ProtoScribe.Binary64

/-!
# Dynamic values

The data that schemas are described with and that messages carry: scalars, byte strings, lists and
dictionaries in insertion order. Names and types of a loaded schema are not restricted to text, so
they are values too.
-/

namespace ProtoScribe

inductive Value
  | none
  | bool (b : Bool)
  | int (n : Int)
  | float (x : Binary64)
  | str (s : String)
  | bytes (b : List UInt8)
  | list (items : List Value)
  | dict (entries : List (Value × Value))
deriving Inhabited, Repr

namespace Value

/-! ### Decidable equality -/

mutual

def decEq : (a b : Value) → Decidable (a = b)
  | .none, b => match b with
    | .none => isTrue rfl
    | .bool _ | .int _ | .float _ | .str _ | .bytes _ | .list _ | .dict _ =>
      isFalse Value.noConfusion
  | .bool x, b => match b with
    | .bool y => decidable_of_iff (x = y) (by simp)
    | .none | .int _ | .float _ | .str _ | .bytes _ | .list _ | .dict _ =>
      isFalse Value.noConfusion
  | .int x, b => match b with
    | .int y => decidable_of_iff (x = y) (by simp)
    | .none | .bool _ | .float _ | .str _ | .bytes _ | .list _ | .dict _ =>
      isFalse Value.noConfusion
  | .float x, b => match b with
    | .float y => decidable_of_iff (x = y) (by simp)
    | .none | .bool _ | .int _ | .str _ | .bytes _ | .list _ | .dict _ =>
      isFalse Value.noConfusion
  | .str x, b => match b with
    | .str y => decidable_of_iff (x = y) (by simp)
    | .none | .bool _ | .int _ | .float _ | .bytes _ | .list _ | .dict _ =>
      isFalse Value.noConfusion
  | .bytes x, b => match b with
    | .bytes y => decidable_of_iff (x = y) (by simp)
    | .none | .bool _ | .int _ | .float _ | .str _ | .list _ | .dict _ =>
      isFalse Value.noConfusion
  | .list x, b => match b with
    | .list y => match decEqItems x y with
      | isTrue h => isTrue (by rw [h])
      | isFalse h => isFalse (by simpa using h)
    | .none | .bool _ | .int _ | .float _ | .str _ | .bytes _ | .dict _ =>
      isFalse Value.noConfusion
  | .dict x, b => match b with
    | .dict y => match decEqEntries x y with
      | isTrue h => isTrue (by rw [h])
      | isFalse h => isFalse (by simpa using h)
    | .none | .bool _ | .int _ | .float _ | .str _ | .bytes _ | .list _ =>
      isFalse Value.noConfusion

def decEqItems : (a b : List Value) → Decidable (a = b)
  | [], [] => isTrue rfl
  | [], _ :: _ => isFalse (by simp)
  | _ :: _, [] => isFalse (by simp)
  | x :: xs, y :: ys => match decEq x y with
    | isFalse h => isFalse (by simp [h])
    | isTrue h => match decEqItems xs ys with
      | isTrue h' => isTrue (by rw [h, h'])
      | isFalse h' => isFalse (by simp [h'])

def decEqEntries : (a b : List (Value × Value)) → Decidable (a = b)
  | [], [] => isTrue rfl
  | [], _ :: _ => isFalse (by simp)
  | _ :: _, [] => isFalse (by simp)
  | (k, v) :: xs, (l, w) :: ys => match decEq k l with
    | isFalse h => isFalse (by simp [h])
    | isTrue h => match decEq v w with
      | isFalse h' => isFalse (by simp [h'])
      | isTrue h' => match decEqEntries xs ys with
        | isTrue h'' => isTrue (by rw [h, h', h''])
        | isFalse h'' => isFalse (by simp [h''])

end

instance : DecidableEq Value := decEq

/-! ### Truth, equality and keys -/

/-- Nothing, false, zero and whatever is empty count as false. -/
def truthy : Value → Bool
  | .none => false
  | .bool b => b
  | .int n => n != 0
  | .float x => !x.isZero
  | .str s => !s.isEmpty
  | .bytes b => !b.isEmpty
  | .list items => !items.isEmpty
  | .dict entries => !entries.isEmpty

/-- Equality of scalars: numbers and truth values compare by numeric value across their kinds. A
list or dictionary equals no scalar. -/
def equals : Value → Value → Bool
  | .none, .none => true
  | .str a, .str b => a == b
  | .bytes a, .bytes b => a == b
  | .float a, .float b => a.equals b
  | .float a, .int b => a.equalsInt b
  | .int a, .float b => b.equalsInt a
  | .int a, .int b => a == b
  | .bool a, .bool b => a == b
  | .bool a, .int b => b == (if a then 1 else 0)
  | .int a, .bool b => a == (if b then 1 else 0)
  | .bool a, .float b => b.equalsInt (if a then 1 else 0)
  | .float a, .bool b => a.equalsInt (if b then 1 else 0)
  | _, _ => false

/-- Whether two scalars are the same key of a dictionary. -/
def sameKey (a b : Value) : Bool := a.equals b || decide (a = b)

def isKey : Value → Bool
  | .list _ | .dict _ => false
  | _ => true

/-! ### Dictionaries -/

def find? (entries : List (Value × Value)) (key : Value) : Option Value :=
  match entries with
  | [] => Option.none
  | (k, v) :: rest => if k.sameKey key then some v else find? rest key

/-- Puts a value under a key: in place of the old one, or at the end. -/
def put (entries : List (Value × Value)) (key value : Value) : List (Value × Value) :=
  match entries with
  | [] => [(key, value)]
  | (k, v) :: rest => if k.sameKey key then (k, value) :: rest else (k, v) :: put rest key value

def ofEntries (entries : List (Value × Value)) : Value :=
  .dict (entries.foldl (fun acc (k, v) => put acc k v) [])

/-! ### Depth -/

mutual

def depth : Value → Nat
  | .none | .bool _ | .int _ | .float _ | .str _ | .bytes _ => 0
  | .list items => depthItems items + 1
  | .dict entries => depthEntries entries + 1

def depthItems : List Value → Nat
  | [] => 0
  | v :: rest => max v.depth (depthItems rest)

def depthEntries : List (Value × Value) → Nat
  | [] => 0
  | (k, v) :: rest => max (max k.depth v.depth) (depthEntries rest)

end

/-! ### Iteration -/

/-- The items that iterating over a value yields: the characters of a text, the numbers of a byte
string, the keys of a dictionary. -/
def items? : Value → Option (List Value)
  | .str s => some (s.toList.map fun c => .str (String.singleton c))
  | .bytes b => some (b.map fun x => .int x.toNat)
  | .list xs => some xs
  | .dict entries => some (entries.map Prod.fst)
  | .none | .bool _ | .int _ | .float _ => Option.none

end Value

end ProtoScribe
